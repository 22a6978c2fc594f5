import Lexwright.Regex.Basic

/-!
# `Lexwright.Automaton.Fragment`: the part of an automaton that recognizes a pattern

A fragment is a block of consecutive states with one way in and one way out. It is built from a
pattern and the number of its first state. A move consumes a character, a jump consumes nothing.

* `Pattern.fragment`: the fragment of a pattern, one function a constructor.
* `Fragment.chain`: fragments one after another.
* `Fragment.copies`: the same pattern several times, each time with states of its own.
-/

set_option autoImplicit false

namespace Lexwright

/-- A step that consumes one character of a set. -/
structure Move where
  source : Nat
  set : Segments
  target : Nat
deriving DecidableEq

/-- A step that consumes nothing. -/
structure Jump where
  source : Nat
  target : Nat
deriving DecidableEq

/-- A block of `size` states, entered at `entry` and left at `exit`. -/
structure Fragment where
  size : Nat
  entry : Nat
  exit : Nat
  moves : List Move
  jumps : List Jump

namespace Fragment

/-- Number of states of several fragments. -/
def sizeAll (fs : List Fragment) : Nat := fs.foldr (fun f n => f.size + n) 0

/-- Jumps that lead from `current` through the fragments, one after another. -/
def chain (current : Nat) : List Fragment → List Jump
  | [] => []
  | f :: rest => f.jumps ++ ⟨current, f.entry⟩ :: chain f.exit rest

/-- Where the way through the fragments ends. -/
def chainEnd (current : Nat) : List Fragment → Nat
  | [] => current
  | f :: rest => chainEnd f.exit rest

/-- Jumps that lead from `current` through some of the fragments and then to `exit`. -/
def optionalChain (current exit : Nat) : List Fragment → List Jump
  | [] => [⟨current, exit⟩]
  | f :: rest =>
    f.jumps ++ ⟨current, exit⟩ :: ⟨current, f.entry⟩ :: optionalChain f.exit exit rest

/-- Fragments in consecutive blocks, all built alike. -/
def copies (build : Nat → Fragment) : Nat → Nat → List Fragment
  | 0, _ => []
  | n + 1, base =>
    let f := build base
    f :: copies build n (base + f.size)

/-- One character of a set. There is no move for the empty set. -/
def chars (set : Segments) (base : Nat) : Fragment where
  size := 2
  entry := base
  exit := base + 1
  moves := if set.isEmpty then [] else [⟨base, set, base + 1⟩]
  jumps := []

/-- The moves of a literal. -/
def literalMoves (base : Nat) : List Segments → List Move
  | [] => []
  | set :: rest => ⟨base, set, base + 1⟩ :: literalMoves (base + 1) rest

/-- One character of each set. -/
def literal (sets : List Segments) (base : Nat) : Fragment where
  size := sets.length + 1
  entry := base
  exit := base + sets.length
  moves := literalMoves base sets
  jumps := []

/-- Any one of the fragments, which start after the two states of the choice. -/
def choice (base : Nat) (fs : List Fragment) : Fragment where
  size := sizeAll fs + 2
  entry := base
  exit := base + 1
  moves := fs.flatMap moves
  jumps := fs.flatMap fun f => f.jumps ++ [⟨base, f.entry⟩, ⟨f.exit, base + 1⟩]

/-- All the fragments in order, or one state if there is none. -/
def seq (base : Nat) : List Fragment → Fragment
  | [] => ⟨1, base, base, [], []⟩
  | f :: rest =>
    { size := f.size + sizeAll rest
      entry := f.entry
      exit := chainEnd f.exit rest
      moves := f.moves ++ rest.flatMap moves
      jumps := f.jumps ++ chain f.exit rest }

/-- The fragment once or more: its exit leads back to its entry. -/
def oneOrMore (base : Nat) (f : Fragment) : Fragment :=
  let entry := base + f.size
  let exit := entry + 1
  { size := f.size + 2, entry, exit
    moves := f.moves
    jumps := f.jumps ++ [⟨entry, f.entry⟩, ⟨f.exit, f.entry⟩, ⟨f.exit, exit⟩] }

/-- The fragment any number of times. -/
def zeroOrMore (base : Nat) (f : Fragment) : Fragment :=
  let entry := base + f.size
  let exit := entry + 1
  { size := f.size + 2, entry, exit
    moves := f.moves
    jumps := f.jumps ++
      [⟨entry, f.entry⟩, ⟨entry, exit⟩, ⟨f.exit, f.entry⟩, ⟨f.exit, exit⟩] }

/-- The fragment once or not at all. -/
def zeroOrOne (base : Nat) (f : Fragment) : Fragment :=
  let entry := base + f.size
  let exit := entry + 1
  { size := f.size + 2, entry, exit
    moves := f.moves
    jumps := f.jumps ++ [⟨entry, f.entry⟩, ⟨entry, exit⟩, ⟨f.exit, exit⟩] }

/-- `least` copies, then up to `most - least` more. The exit comes after the first copies. -/
def between (least most : Nat) (build : Nat → Fragment) (base : Nat) : Fragment :=
  let needed := copies build least (base + 1)
  let exit := base + 1 + sizeAll needed
  let others := copies build (most - least) (exit + 1)
  { size := sizeAll needed + sizeAll others + 2
    entry := base
    exit
    moves := needed.flatMap moves ++ others.flatMap moves
    jumps := chain base needed ++ optionalChain (chainEnd base needed) exit others }

/-- `least` copies, then one more that may be left out or repeated. -/
def atLeast (least : Nat) (build : Nat → Fragment) (base : Nat) : Fragment :=
  let needed := copies build least (base + 1)
  let current := chainEnd base needed
  let exit := base + 1 + sizeAll needed
  let f := build (exit + 1)
  { size := sizeAll needed + f.size + 2
    entry := base
    exit
    moves := needed.flatMap moves ++ f.moves
    jumps := chain base needed ++ f.jumps ++
      [⟨current, f.entry⟩, ⟨current, exit⟩, ⟨f.exit, f.entry⟩, ⟨f.exit, exit⟩] }

/-- The fragments that `build` gives, repeated. -/
def repeated (build : Nat → Fragment) (base : Nat) : Count → Fragment
  | .oneOrMore => oneOrMore base (build base)
  | .zeroOrMore => zeroOrMore base (build base)
  | .zeroOrOne => zeroOrOne base (build base)
  | .range least (some most) => between least most build base
  | .range least none => atLeast least build base

end Fragment

mutual

/-- The fragment of a pattern, from state `base` on. -/
def Pattern.fragment : Pattern → Nat → Fragment
  | .chars set, base => Fragment.chars set base
  | .literal sets, base => Fragment.literal sets base
  | .choice ps, base => Fragment.choice base (Pattern.fragments ps (base + 2))
  | .seq ps, base => Fragment.seq base (Pattern.fragments ps base)
  | .repeated count p, base => Fragment.repeated (fun b => Pattern.fragment p b) base count

/-- The fragments of several patterns in consecutive blocks. -/
def Pattern.fragments : List Pattern → Nat → List Fragment
  | [], _ => []
  | p :: ps, base =>
    let f := Pattern.fragment p base
    f :: Pattern.fragments ps (base + f.size)

end

end Lexwright

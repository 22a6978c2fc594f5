import Lexwright.Automaton.Closure

/-!
# `Lexwright.Automaton.Memo`: the closures that were asked for

Closures are computed when they are first asked for, and kept in a table. Every question can
change the table, so questions are computations with the table as their state.

* `Memo`: an automaton with the closures that are known so far.
* `Memo.closure`, `Memo.startSet`, `Memo.step`, `Memo.read`, `Memo.longestMatch`: the questions.
* `Memo.computed`: the table with all the closures that reading a text can ask for.
-/

set_option autoImplicit false

namespace Lexwright

/-- An automaton with the closures of its states that are known so far. -/
structure Memo where
  automaton : Automaton
  closures : Array (Option StateSet)
deriving Inhabited

namespace Memo

/-- No closure is known yet. -/
def ofAutomaton (a : Automaton) : Memo where
  automaton := a
  closures := Array.replicate a.states.size none

/-- The important states that jumps reach from a state: those of the table, if it has them. -/
def closure (q : Nat) : StateM Memo StateSet :=
  modifyGet fun m =>
    match m.closures[q]?.join with
    | some set => (set, m)
    | none =>
      let set := m.automaton.closure q
      (set, { m with closures := m.closures.setIfInBounds q (some set) })

/-- The states before the first character in a lexical state. -/
def startSet (lexState : Nat) : StateM Memo StateSet := do
  match (← get).automaton.lexStates[lexState]? with
  | some info => closure info.start
  | none => pure .empty

/-- The states after one more character. -/
def step (active : StateSet) (c : Char) : StateM Memo StateSet := do
  let a := (← get).automaton
  active.toList.foldlM
    (fun next q =>
      match a.move? q with
      | some (set, target) =>
        if set.contains c.toNat then next.union <$> closure target else pure next
      | none => pure next)
    .empty

/-- The states after a text. -/
def read (active : StateSet) (w : List Char) : StateM Memo StateSet := w.foldlM step active

/-- The rule of the lowest ordinal that a member of the set accepts. -/
def acceptOf (m : Memo) (set : StateSet) : Except Conflict (Option Accept) :=
  Engine.acceptOf ⟨m.automaton, #[]⟩ set

/-- Reads a text from a set of states, after `count` characters, and keeps the last rule that was
accepted with the number of characters before it. -/
def matchFrom (active : StateSet) (best : Option (Accept × Nat)) (count : Nat) :
    List Char → StateM Memo (Except Conflict (Option (Accept × Nat)))
  | [] => pure (.ok best)
  | c :: rest => do
    let next ← step active c
    if next.isEmpty then pure (.ok best)
    else
      match (← get).acceptOf next with
      | .ok (some accept) => matchFrom next (some (accept, count + 1)) (count + 1) rest
      | .ok none => matchFrom next best (count + 1) rest
      | .error conflict => pure (.error conflict)

/-- The longest prefix of a text that a lexical state accepts, with its rule. -/
def longestMatch (lexState : Nat) (text : String) :
    StateM Memo (Except Conflict (Option (Accept × Nat))) := do
  matchFrom (← startSet lexState) none 0 text.toList

/-- The states whose closures reading a text can ask for: the start states and the targets of the
moves. -/
def needed (a : Automaton) : List Nat :=
  a.lexStates.toList.map LexStateInfo.start ++
    a.states.toList.filterMap fun s => s.move.map Prod.snd

/-- The table with the closures that are needed. -/
def computed (a : Automaton) : Memo :=
  (((needed a).forM fun q => discard (closure q)).run (ofAutomaton a)).2

end Memo

end Lexwright

import Lexwright.Automaton.Fragment
import Lexwright.Position
import Lexwright.Segments.Split
import Lexwright.Terminal
import Std.Data.HashMap

/-!
# `Lexwright.Automaton.Basic`: a nondeterministic automaton with jumps

Each lexical state has a block of states of its own, which begins with its start state. A state
has at most one move. The states with a move or an accepted rule are important: a set of states
is known by its important members.
-/

set_option autoImplicit false

namespace Lexwright

/-- The rule that a state accepts. -/
structure Accept where
  rule : Nat
  ordinal : Nat
  kind : Nat
deriving DecidableEq, Repr, Inhabited

/-- A state: its lexical state, the set and the target of its move, the targets of its jumps, and
the rule that it accepts. -/
structure State where
  lexState : Nat
  move : Option (Segments × Nat) := none
  jumps : Array Nat := #[]
  accept : Option Accept := none
deriving Inhabited

/-- Whether the state has a move or accepts a rule. -/
def State.isImportant (s : State) : Bool := s.move.isSome || s.accept.isSome

/-- What is known of a rule: its data, and the entry and exit of its fragment if it has one. -/
structure RuleInfo where
  lexState : Nat
  ordinal : Nat
  kind : Nat
  category : Category
  nextState : Option Nat
  name : String
  pos : Option Pos
  fragment : Option (Nat × Nat)
  isEof : Bool
deriving Inhabited

/-- What is known of a lexical state: its start state, its rules from `firstRule` up to but not
including `endRule`, and the rule for the end of the input. -/
structure LexStateInfo where
  name : String
  start : Nat
  eofRule : Option Nat
  firstRule : Nat
  endRule : Nat
deriving Inhabited

/-- The automaton of a lexicon. -/
structure Automaton where
  states : Array State := #[]
  lexStates : Array LexStateInfo := #[]
  rules : Array RuleInfo := #[]
deriving Inhabited

/-- The number of each name, the first one if a name is repeated. -/
def firstIndices (names : Array String) : Std.HashMap String Nat :=
  (names.foldl
    (fun (found : Std.HashMap String Nat × Nat) name =>
      (found.1.insertIfNew name found.2, found.2 + 1))
    (∅, 0)).1

namespace Automaton

/-- The important states, in order. -/
def importantStates (a : Automaton) : List Nat :=
  (List.range a.states.size).filter fun q => (a.states[q]?.map State.isImportant).getD false

/-- One line for each lexical state. -/
def displayLexState (id : Nat) (s : LexStateInfo) : String :=
  let eof := match s.eofRule with
    | some r => s!", <EOF> rule {r}"
    | none => ""
  s!"lexical state {id} '{s.name}': start {s.start}, rules {s.firstRule}..{s.endRule}{eof}\n"

/-- One line for each state: its move, its jumps and the rule that it accepts. -/
def displayState (id : Nat) (s : State) : String :=
  let move := match s.move with
    | some (set, target) => [s!"{set.display} -> {target}"]
    | none => []
  let jumps :=
    if s.jumps.isEmpty then []
    else ["ε -> " ++ String.intercalate ", " (s.jumps.toList.map toString)]
  let accept := match s.accept with
    | some a => [s!"accept rule {a.rule} (ordinal {a.ordinal}, kind {a.kind})"]
    | none => []
  s!"- {id}: " ++ String.intercalate ", " (move ++ jumps ++ accept) ++ "\n"

/-- The lexical states, then the states. -/
def display (a : Automaton) : String :=
  String.join (a.lexStates.toList.zipIdx.map fun s => displayLexState s.2 s.1) ++
    String.join (a.states.toList.zipIdx.map fun s => displayState s.2 s.1)

/-- Number of states, rules and lexical states. -/
def counts (a : Automaton) : Nat × Nat × Nat := (a.states.size, a.rules.size, a.lexStates.size)

end Automaton

end Lexwright

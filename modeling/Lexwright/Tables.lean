import Lexwright.CharClass.Test
import Lexwright.Terminal

/-!
# `Lexwright.Tables`: all that a lexer needs of its lexicon

Rules, lexical states, rows and states are known by number. A row is a slice of `rowMembers`: the
states that become active together.
-/

set_option autoImplicit false

namespace Lexwright

/-- Where a lexical state starts: its first row, unless it matches nothing, and its rule for the
end of the input. -/
structure LexEntry where
  startRow : Option Nat
  eofRule : Option Nat
deriving DecidableEq, Repr, Inhabited

/-- The move of a state: the class of its characters, and the row that becomes active. -/
structure Transition where
  charClass : Nat
  nextRow : Nat
deriving DecidableEq, Repr, Inhabited

/-- The tables of a lexer. -/
structure Tables where
  /-- What each rule asks for. -/
  terminals : Array Terminal := #[]
  lexStates : Array LexEntry := #[]
  /-- Bounds of each row in `rowMembers`, the last bound excluded. -/
  rows : Array (Nat × Nat) := #[]
  rowMembers : Array Nat := #[]
  /-- The rule that each row accepts. -/
  rowRules : Array (Option Nat) := #[]
  /-- The move of each state that has one. -/
  transitions : Array (Option Transition) := #[]
  classes : Array ClassTest := #[]
  classTables : ClassTables := default
deriving DecidableEq, Inhabited

namespace Tables

/-- The members of a row. -/
def row (t : Tables) (r : Nat) : Array Nat :=
  match t.rows[r]? with
  | some (first, last) => t.rowMembers.extract first last
  | none => #[]

/-- The rule that a row accepts. -/
def rowRule (t : Tables) (r : Nat) : Option Nat := t.rowRules[r]?.join

/-- Whether a character belongs to a class. -/
def classContains (t : Tables) (id : Nat) (c : Char) : Bool :=
  match t.classes[id]? with
  | some test => test.contains t.classTables c
  | none => false

/-- The row that a state leads to when it reads a character. -/
def target? (t : Tables) (q : Nat) (c : Char) : Option Nat :=
  match t.transitions[q]?.join with
  | some move => if t.classContains move.charClass c then some move.nextRow else none
  | none => none

/-- Lays rows out one after another, from index `first` on. -/
def rowBounds (first : Nat) : List Nat → List (Nat × Nat)
  | [] => []
  | size :: rest => (first, first + size) :: rowBounds (first + size) rest

end Tables

end Lexwright

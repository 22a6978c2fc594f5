import Lexwright.Log
import Lexwright.Regex.Display
import Lexwright.Terminal

/-!
# `Lexwright.Lexicon`: lexical states and their rules

A lexicon is a list of lexical states, each a list of rules. It carries a log for what was found
while it was read; a lexicon whose log has errors is not compiled.
-/

set_option autoImplicit false

namespace Lexwright

/-- A rule of a lexical state: what it matches, and what becomes of a match. Of two rules that
match the same text, the one with the lower ordinal is selected. -/
structure Rule where
  ordinal : Nat
  kind : Nat
  regex : Regex
  ignoreCase : Bool := false
  category : Category := .token
  nextState : Option String := none
deriving Inhabited

/-- The label of the rule's expression, or its written form. -/
def Rule.name (r : Rule) : String := r.regex.tag.label.getD r.regex.display

/-- A lexical state: the rules that apply while the lexer is in it. -/
structure LexState where
  name : String
  rules : List Rule := []
  pos : Option Pos := none
deriving Inhabited

/-- The lexical states, the first one being where a lexer starts. -/
structure Lexicon where
  states : List LexState
  log : Log := {}
deriving Inhabited

namespace Lexicon

/-- The first lexical state with this name. -/
def state? (lexicon : Lexicon) (name : String) : Option LexState :=
  lexicon.states.find? (·.name = name)

/-- Number of rules of all the lexical states. -/
def ruleCount (lexicon : Lexicon) : Nat :=
  lexicon.states.foldr (fun s n => s.rules.length + n) 0

end Lexicon

end Lexwright

import Lexwright.Log
import Lexwright.Position
import Lexwright.Text.Escape

/-!
# `Lexwright.Issue`: what can be wrong with a lexicon

Each issue is a cause; `Issue.text` is its wording and `Issue.message` the message that reports
it.
-/

set_option autoImplicit false

namespace Lexwright

open Text

/-- What is wrong with a lexicon, one of its lexical states, a rule or a node of an expression. -/
inductive Issue where
  | noStates
  | tooManyStates (count : Nat)
  | duplicateLabel (label : String)
  | duplicateState (name : String)
  | ordinalOrder (rule : String) (ordinal previous : Nat)
  | unknownState (rule next : String)
  | severalEofRules (state : String)
  | reservedKind (rule : String)
  | misplacedEof
  | invalidRange (first last : Char)
  | emptyClass (shown : String)
  | recursiveReference (name : String)
  | undefinedReference (name : String)
  | invalidRepetition (least most : Nat)
  | excessiveRepetition (bound limit : Nat)
  | matchesEmpty (rule : String)
  | neverMatched (rule : String)
  | searchStopped (state : String) (limit : Nat)
deriving DecidableEq, Repr

namespace Issue

/-- The wording of an issue. -/
def text : Issue → String
  | noStates => "the lexicon has no lexical state"
  | tooManyStates count => s!"too many lexical states ({count})"
  | duplicateLabel label => s!"label '{label}' is already defined"
  | duplicateState name => s!"lexical state '{name}' is already defined"
  | ordinalOrder rule ordinal previous =>
    s!"rule {rule}: ordinal {ordinal} must be greater than the previous ordinal {previous}"
  | unknownState rule next => s!"rule {rule}: unknown lexical state '{next}'"
  | severalEofRules state => s!"lexical state '{state}' has several <EOF> rules"
  | reservedKind rule => s!"rule {rule}: kind 0 is reserved for <EOF>"
  | misplacedEof => "<EOF> must be the whole pattern of a rule"
  | invalidRange first last => s!"invalid range '{escapeChar first}'-'{escapeChar last}'"
  | emptyClass shown => s!"character class {shown} is empty and never matches"
  | recursiveReference name => s!"recursive reference to <{name}>"
  | undefinedReference name => s!"undefined reference to <{name}>"
  | invalidRepetition least most => s!"invalid repetition range \x7b{least},{most}\x7d"
  | excessiveRepetition bound limit => s!"repetition bound {bound} exceeds the maximum {limit}"
  | matchesEmpty rule => s!"rule {rule} matches the empty string, which never produces a token"
  | neverMatched rule => s!"rule {rule} can never be matched"
  | searchStopped state limit =>
    s!"lexical state '{state}': the search for unmatched rules stopped after {limit} state sets"

instance : Hashable Issue := ⟨fun issue => hash issue.text⟩

/-- Whether the lexicon can still be compiled. -/
def isWarning : Issue → Bool
  | emptyClass _ => true
  | matchesEmpty _ => true
  | neverMatched _ => true
  | searchStopped _ _ => true
  | _ => false

/-- The message that reports the issue at a position. -/
def message (issue : Issue) (pos : Option Pos) : Message :=
  if issue.isWarning then .warning (located pos issue.text) else .error (located pos issue.text)

end Issue

end Lexwright

/-!
# `Lexwright.Terminal`: what happens to the text that a rule matches
-/

set_option autoImplicit false

namespace Lexwright

/-- The kind of tokens that stands for the end of the input. -/
def eofKind : Nat := 0

/-- The largest kind, given to the items that report an unrecognized character. -/
def errorKind : Nat := 65535

/-- What the lexer does with a match: return it as a token, drop it with all the text kept so far,
keep it as the start of the next token, or return it as a token beside the main channel. -/
inductive Category where
  | token
  | skip
  | more
  | special
deriving DecidableEq, Repr, Inhabited

namespace Category

/-- Name of the category. -/
def display : Category → String
  | token => "token"
  | skip => "skip"
  | more => "more"
  | special => "special"

/-- The channel of the tokens of a rule, if the rule returns tokens. -/
def channel? : Category → Option Nat
  | token => some 0
  | special => some 1
  | skip => none
  | more => none

end Category

/-- What a rule asks for once it is selected: the kind of its tokens, what to do with the text, and
the lexical state to enter. -/
structure Terminal where
  kind : Nat
  category : Category
  nextState : Option Nat
deriving DecidableEq, Repr, Inhabited

/-- Category and kind, and the state to enter if there is one. -/
def Terminal.display (t : Terminal) : String :=
  let next := match t.nextState with
    | some s => s!",state {s}"
    | none => ""
  s!"<{t.category.display} {t.kind}{next}>"

end Lexwright

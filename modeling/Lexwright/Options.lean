/-!
# `Lexwright.Options`: settings of the compiler
-/

set_option autoImplicit false

namespace Lexwright

/-- Settings of the compiler. -/
structure Options where
  /-- The largest bound of a repetition; each repetition copies the repeated expression. -/
  maxRepetition : Nat := 1000
  /-- How many state sets the search for rules that never match may meet. There is no search if
  it is 0. -/
  maxStateSets : Nat := 10000
  /-- Whether to warn of rules that never match. -/
  warnUnreachable : Bool := true
  /-- Lines in front of the emitted source. -/
  headers : List String := []
deriving DecidableEq, Repr, Inhabited

/-- Settings that are collected one at a time. -/
structure OptionsBuilder where
  current : Options := {}
deriving DecidableEq, Repr, Inhabited

namespace OptionsBuilder

/-- Sets the largest bound of a repetition. -/
def maxRepetition (b : OptionsBuilder) (n : Nat) : OptionsBuilder :=
  ⟨{ b.current with maxRepetition := n }⟩

/-- Sets the limit of the search for rules that never match. -/
def maxStateSets (b : OptionsBuilder) (n : Nat) : OptionsBuilder :=
  ⟨{ b.current with maxStateSets := n }⟩

/-- Sets whether to warn of rules that never match. -/
def warnUnreachable (b : OptionsBuilder) (warn : Bool) : OptionsBuilder :=
  ⟨{ b.current with warnUnreachable := warn }⟩

/-- Adds lines in front of the emitted source. -/
def addHeaders (b : OptionsBuilder) (lines : List String) : OptionsBuilder :=
  ⟨{ b.current with headers := b.current.headers ++ lines }⟩

/-- The settings collected so far. The builder starts again from the defaults. -/
def build (b : OptionsBuilder) : Options × OptionsBuilder := (b.current, {})

end OptionsBuilder

end Lexwright

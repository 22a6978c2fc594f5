/-!
# `Lexwright.Text.Scalar`: codepoints and the characters among them

A codepoint is a natural number. It is a character when it is a Unicode scalar value: at most
`maxCode` and outside the surrogate gap.
-/

set_option autoImplicit false

namespace Lexwright.Text

/-- First codepoint of the surrogate gap. -/
def gapFirst : Nat := 0xd800

/-- Last codepoint of the surrogate gap. -/
def gapLast : Nat := 0xdfff

/-- Last codepoint. -/
def maxCode : Nat := 0x10ffff

/-- The character with this codepoint, if there is one. -/
def charOfCode? (code : Nat) : Option Char :=
  if code.isValidChar then some (Char.ofNat code) else none

/-- A character is found again by its codepoint. -/
theorem charOfCode?_toNat (c : Char) : charOfCode? c.toNat = some c := by
  unfold charOfCode?
  have h : c.toNat.isValidChar := c.valid
  rw [if_pos h, Char.ofNat_toNat]

/-- The character of a codepoint has this codepoint. -/
theorem toNat_of_charOfCode? {code : Nat} {c : Char} (h : charOfCode? code = some c) :
    c.toNat = code := by
  unfold charOfCode? at h
  split at h
  · rename_i hValid
    cases h
    have hChar : Char.ofNat code = Char.ofNatAux code hValid := dif_pos hValid
    rw [hChar]
    rfl
  · cases h

end Lexwright.Text

import Lexwright.Text.Scalar

/-!
# `Lexwright.Text.Utf8`: characters as one to four octets

The lead octet announces the length of a character. Each octet that follows carries six bits.
A sequence counts only in its shortest form, and only if it gives a scalar value.
-/

set_option autoImplicit false

namespace Lexwright.Text

/-- Number of octets that a lead octet announces, 0 if no character starts with it. -/
def leadLength (lead : UInt8) : Nat :=
  if lead < 0x80 then 1
  else if lead < 0xc2 then 0
  else if lead < 0xe0 then 2
  else if lead < 0xf0 then 3
  else if lead < 0xf5 then 4
  else 0

/-- The six bits of a continuation octet. -/
def continuation? (octet : UInt8) : Option Nat :=
  if 0x80 ≤ octet ∧ octet < 0xc0 then some (octet.toNat - 0x80) else none

/-- The character with this codepoint, if the codepoint is at least `least`. -/
def charFrom? (least code : Nat) : Option Char :=
  if least ≤ code then charOfCode? code else none

/-- The character that exactly these octets encode. -/
def decodeOctets? : List UInt8 → Option Char
  | [a] => if a < 0x80 then charOfCode? a.toNat else none
  | [a, b] =>
    if 0xc0 ≤ a ∧ a < 0xe0 then do
      let y ← continuation? b
      charFrom? 0x80 ((a.toNat - 0xc0) * 64 + y)
    else none
  | [a, b, c] =>
    if 0xe0 ≤ a ∧ a < 0xf0 then do
      let y ← continuation? b
      let z ← continuation? c
      charFrom? 0x800 (((a.toNat - 0xe0) * 64 + y) * 64 + z)
    else none
  | [a, b, c, d] =>
    if 0xf0 ≤ a ∧ a < 0xf8 then do
      let x ← continuation? b
      let y ← continuation? c
      let z ← continuation? d
      charFrom? 0x10000 ((((a.toNat - 0xf0) * 64 + x) * 64 + y) * 64 + z)
    else none
  | _ => none

end Lexwright.Text

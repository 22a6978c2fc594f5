import Lexwright.Text.Unprintable

/-!
# `Lexwright.Text.Escape`: numbers and characters as they appear in messages

Words and codepoints are written by their hexadecimal digits.

The four bounds of the two blocks of scalar values have names. Controls that have a short form,
quotes and the backslash are written with a backslash. What is not printable is written by its
number. All else stands for itself.
-/

set_option autoImplicit false

namespace Lexwright.Text

/-- The hexadecimal digits of `n`, without padding. -/
def hex (n : Nat) : String :=
  String.ofList (Nat.toDigits 16 n)

/-- The hexadecimal digits of `n`, filled with zeros on the left up to `width` digits. -/
def hexPadded (width n : Nat) : String :=
  let digits := Nat.toDigits 16 n
  String.ofList (List.replicate (width - digits.length) '0' ++ digits)

/-- A 64-bit word as 16 digits. -/
def hexWord (w : BitVec 64) : String :=
  hexPadded 16 w.toNat

/-- A codepoint written by its number. -/
def escapeCode (code : Nat) : String :=
  "\\u\x7b" ++ hex code ++ "\x7d"

/-- The written form of a character. -/
def escapeChar (c : Char) : String :=
  match c with
  | '\x00' => "MIN"
  | '\ud7ff' => "LOW_MAX"
  | '\ue000' => "HIGH_MIN"
  | '\t' => "\\t"
  | '\n' => "\\n"
  | '\r' => "\\r"
  | '"' => "\\\""
  | '\'' => "\\'"
  | '\\' => "\\\\"
  | _ =>
    if c.toNat = 0x10ffff then "MAX"
    else if isUnprintable c.toNat then escapeCode c.toNat
    else c.toString

/-- The written form of a text, character by character. -/
def escape (text : String) : String :=
  String.join (text.toList.map escapeChar)

end Lexwright.Text

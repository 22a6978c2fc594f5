import Lexwright.Regex.Basic
import Lexwright.Text.Escape

/-!
# `Lexwright.Regex.Display`: the written form of an expression
-/

set_option autoImplicit false

namespace Lexwright

open Text

/-- A character between double quotes. -/
def quoteChar (c : Char) : String := "\"" ++ escapeChar c ++ "\""

/-- One quoted character, or two with a dash between them. -/
def quoteRange (range : Char × Char) : String :=
  if range.1 = range.2 then quoteChar range.1
  else quoteChar range.1 ++ "-" ++ quoteChar range.2

/-- The mark after a repeated expression. -/
def Count.display : Count → String
  | oneOrMore => "+"
  | zeroOrMore => "*"
  | zeroOrOne => "?"
  | range least none => s!"\x7b{least},\x7d"
  | range least (some most) =>
    if most = least then s!"\x7b{least}\x7d" else s!"\x7b{least},{most}\x7d"

/-- The written expression, in a bracket with its label if it has one. -/
def Tag.enclose (tag : Tag) (body : String) : String :=
  match tag.label with
  | some label => "<" ++ (if tag.hidden then "#" else "") ++ label ++ ": " ++ body ++ ">"
  | none => body

namespace Regex

mutual

/-- The written form of an expression. -/
def display : Regex → String
  | chars t negated ranges =>
    t.enclose ((if negated then "~" else "") ++
      "[" ++ String.intercalate "," (ranges.map quoteRange) ++ "]")
  | literal t text => t.enclose ("\"" ++ escape text ++ "\"")
  | choice t rs => t.enclose ("(" ++ String.intercalate " | " (displayAll rs) ++ ")")
  | seq t rs => t.enclose ("(" ++ String.intercalate " " (displayAll rs) ++ ")")
  | repeated t count r => t.enclose ("(" ++ display r ++ ")" ++ count.display)
  | eof t => t.enclose "<EOF>"
  | ref t name => t.enclose ("<" ++ name ++ ">")

/-- The written forms of several expressions. -/
def displayAll : List Regex → List String
  | [] => []
  | r :: rs => display r :: displayAll rs

end

end Regex

end Lexwright

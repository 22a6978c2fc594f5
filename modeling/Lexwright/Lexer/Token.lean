import Lexwright.Position
import Lexwright.Stream.Basic
import Lexwright.Text.Escape

/-!
# `Lexwright.Lexer.Token`: what a lexer gives

* `Token`: a matched text with its kind, its channel and its place.
* `LexError`: why there is no token.
* `splitChannels`: the tokens of the main channel apart from the others.
-/

set_option autoImplicit false

namespace Lexwright

open Text

/-- A matched text. -/
structure Token where
  kind : Nat
  channel : Nat
  text : String
  span : Span
deriving DecidableEq, Repr

/-- Where an error occurred: the place, the character there, the lexical state, and the text that
was kept or read. -/
structure ErrorInfo where
  caret : Caret
  char : Option Char
  lexState : Nat
  text : String
deriving DecidableEq, Repr

/-- Why there is no token. -/
inductive LexError where
  /-- The lexer has nothing to read. -/
  | noStream
  /-- The input ended after text that was kept for the next token. -/
  | endOfStream (info : ErrorInfo)
  /-- No rule matches a text that begins with the character. -/
  | unrecognizedChar (info : ErrorInfo)
  /-- The lexer is in a lexical state that its tables do not have. -/
  | noSuchLexState (info : ErrorInfo)
  /-- The stream failed after `count` characters. -/
  | stream (count : Nat) (error : StreamError)
deriving DecidableEq, Repr

namespace LexError

/-- Where the error occurred, if it is an error about a place. -/
def info? : LexError → Option ErrorInfo
  | endOfStream i | unrecognizedChar i | noSuchLexState i => some i
  | _ => none

/-- Number of characters before the error. -/
def count? : LexError → Option Nat
  | stream count _ => some count
  | e => e.info?.map (·.caret.count)

/-- The position of the error. -/
def pos? (e : LexError) : Option Pos := e.info?.map (·.caret.pos)

/-- The place at the end of a message. -/
def place (k : Caret) : String := s!"line {k.line}, col {k.col} (stream pos = {k.count})"

/-- The wording of the error. -/
def display : LexError → String
  | noStream => "no stream attached"
  | endOfStream i => s!"unexpected end of stream after '{escape i.text}', {place i.caret}"
  | unrecognizedChar i =>
    let shown := match i.char with
      | some c => escapeChar c
      | none => ""
    s!"unrecognized character '{shown}', {place i.caret}"
  | noSuchLexState i => s!"lexical state {i.lexState} doesn't exist, {place i.caret}"
  | stream count error => s!"stream error: {error.display} (stream pos = {count})"

/-- The wording of the last error, if there was one. -/
def displayLast : Option LexError → String
  | some e => e.display
  | none => "no error"

end LexError

/-- The tokens of the main channel, and the others. -/
def splitChannels (tokens : List Token) : List Token × List Token :=
  tokens.partition (·.channel = 0)

end Lexwright

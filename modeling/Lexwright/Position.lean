/-!
# `Lexwright.Position`: places in a text

* `Pos`: a line and a column, both counted from 1.
* `Span`: the text from one position to another, empty when the last one is before the first.
* `Caret`: where reading stands, as a position and a number of characters. `Caret.advance` says
  how each character moves it.
-/

set_option autoImplicit false

namespace Lexwright

/-- A line and a column. -/
structure Pos where
  line : Nat
  col : Nat
deriving DecidableEq, Repr

namespace Pos

/-- Positions are ordered by line, then by column. -/
def before (p q : Pos) : Bool :=
  p.line < q.line || (p.line == q.line && p.col < q.col)

/-- Line and column with a colon between them. -/
def display (p : Pos) : String := s!"{p.line}:{p.col}"

end Pos

/-- A text with the position that it is about, if there is one. -/
def located (pos : Option Pos) (text : String) : String :=
  match pos with
  | some p => s!"{p.display}: {text}"
  | none => text

/-- The text from the position of its first character to that of its last. -/
structure Span where
  first : Pos
  last : Pos
deriving DecidableEq, Repr

namespace Span

/-- The span of no text. -/
def empty : Span := ⟨⟨1, 1⟩, ⟨0, 0⟩⟩

instance : Inhabited Span := ⟨empty⟩

/-- Whether the span holds no text. -/
def isEmpty (s : Span) : Bool := s.last.before s.first

/-- Position of the first character. -/
def first? (s : Span) : Option Pos := if s.isEmpty then none else some s.first

/-- Position of the last character. -/
def last? (s : Span) : Option Pos := if s.isEmpty then none else some s.last

/-- The span extended to the end of a later one. Empty spans add nothing. -/
def extend (s t : Span) : Span :=
  if t.isEmpty then s
  else if s.isEmpty then t
  else { s with last := t.last }

/-- The bounds of the span; a bound that repeats the line leaves it out. -/
def display (s : Span) : String :=
  if s.isEmpty then "<empty>"
  else if s.first = s.last then s.first.display
  else if s.first.line = s.last.line then s!"{s.first.display}-{s.last.col}"
  else s!"{s.first.display}-{s.last.display}"

end Span

/-- Where reading stands: the position of the next character, and how many characters precede
it. -/
structure Caret where
  count : Nat
  line : Nat
  col : Nat
deriving DecidableEq, Repr

namespace Caret

/-- The start of a text. -/
def start : Caret := ⟨0, 1, 1⟩

/-- The position of the next character. -/
def pos (k : Caret) : Pos := ⟨k.line, k.col⟩

/-- Moves past one character. A tab moves to the next multiple of the tab width, a line feed to
the next line; a carriage return takes no column. -/
def advance (tabWidth : Nat) (k : Caret) (c : Char) : Caret :=
  match c with
  | '\t' => ⟨k.count + 1, k.line, k.col - (k.col - 1) % tabWidth + tabWidth⟩
  | '\n' => ⟨k.count + 1, k.line + 1, 1⟩
  | '\r' => ⟨k.count + 1, k.line, k.col⟩
  | _ => ⟨k.count + 1, k.line, k.col + 1⟩

/-- Every character counts, whatever it does to the line and the column. -/
theorem count_advance (tabWidth : Nat) (k : Caret) (c : Char) :
    (k.advance tabWidth c).count = k.count + 1 := by
  unfold advance
  split <;> rfl

end Caret

end Lexwright

import Lexwright.Lexer.Token
import Lexwright.Tables

/-!
# `Lexwright.Lexer.Scan`: the longest match of a token

A lexer keeps the list of the states that are active. For each character, every active state
whose class holds the character activates the states of a row, and the rule of the match is the
lowest rule of those rows. It reads until no state is active, and keeps the last match.

* `Marks`: which states were met in the current step. A state is marked when its stamp is the
  current generation, so a new generation removes all the marks at once. When the generations have
  gone through all the words, the stamps are cleared and the generations start again.
* `Tables.step`: the active states after one more character.
* `scanFrom`: reads characters while states are active.
* `remaining_scanFrom_le`: a scan uses the stream up by at least what it reads.
* `Scan.Sound`, `sound_scanFrom`: a match is neither empty nor longer than what was read.
-/

set_option autoImplicit false

namespace Lexwright

/-- A stamp for each state, and the current generation. -/
structure Marks where
  stamps : Array UInt32
  generation : UInt32

namespace Marks

/-- Stamps for `size` states. -/
def ofSize (size : Nat) : Marks := ⟨Array.replicate size 0, 0⟩

/-- Removes all the marks. -/
def renew (m : Marks) : Marks :=
  if m.generation + 1 = 0 then ⟨Array.replicate m.stamps.size 0, 1⟩
  else { m with generation := m.generation + 1 }

/-- Whether a state is marked. -/
def contains (m : Marks) (q : Nat) : Bool := m.stamps[q]? = some m.generation

/-- Marks a state. -/
def insert (m : Marks) (q : Nat) : Marks :=
  { m with stamps := m.stamps.setIfInBounds q m.generation }

end Marks

/-- The lower of two rules. -/
def lowerRule : Option Nat → Option Nat → Option Nat
  | some a, some b => some (min a b)
  | some a, none => some a
  | none, b => b

namespace Tables

/-- Activates a state, unless it is marked. -/
def activate (found : Marks × Array Nat) (q : Nat) : Marks × Array Nat :=
  if found.1.contains q then found else (found.1.insert q, found.2.push q)

/-- Activates the row that a state leads to when it reads a character, and takes the rule of the
row into account. -/
def stepState (t : Tables) (c : Char) (found : (Marks × Array Nat) × Option Nat) (q : Nat) :
    (Marks × Array Nat) × Option Nat :=
  match t.target? q c with
  | some row => ((t.row row).foldl activate found.1, lowerRule found.2 (t.rowRule row))
  | none => found

/-- The states that are active after one more character, and the rule that matches there. -/
def step (t : Tables) (marks : Marks) (active : Array Nat) (c : Char) :
    (Marks × Array Nat) × Option Nat :=
  active.foldl (t.stepState c) ((marks.renew, #[]), none)

end Tables

/-- A match: its rule and length, the position of its last character, and where reading stands
after it. -/
structure Match where
  rule : Nat
  length : Nat
  lastPos : Pos
  after : Caret

/-- What a scan has read so far. -/
structure Scan (σ : Type) where
  stream : σ
  caret : Caret
  marks : Marks
  /-- Number of characters read. -/
  read : Nat := 0
  /-- The first character, and where reading stands after it. -/
  first : Option (Char × Caret) := none
  /-- The longest match. -/
  best : Option Match := none
  /-- Why the stream gave no further character. -/
  error : Option StreamError := none

/-- What a scan has read after one more character, and the states that are active then. -/
def Scan.next {σ : Type} (t : Tables) (tabWidth : Nat) (x : Scan σ) (active : Array Nat)
    (stream : σ) (c : Char) : Scan σ × Array Nat :=
  let after := x.caret.advance tabWidth c
  let ((marks, active), rule) := t.step x.marks active c
  let best := match rule with
    | some r => some ⟨r, x.read + 1, x.caret.pos, after⟩
    | none => x.best
  ({ stream, caret := after, marks, best
     read := x.read + 1
     first := x.first.or (some (c, after))
     error := x.error }, active)

variable {σ : Type} [CharStream σ]

/-- Reads a character, and goes on as long as a state is active. -/
def scanFrom (t : Tables) (tabWidth : Nat) (x : Scan σ) (active : Array Nat) : Scan σ :=
  match h : CharStream.read x.stream with
  | (.ok none, stream) => { x with stream }
  | (.error e, stream) => { x with stream, error := some e }
  | (.ok (some c), stream) =>
    have := CharStream.remaining_read_lt h
    let after := x.next t tabWidth active stream c
    if after.2.isEmpty then after.1 else scanFrom t tabWidth after.1 after.2
termination_by CharStream.remaining x.stream

/-- A scan uses the stream up by at least what it reads. The induction is that of the scan: every
round reads a character. -/
theorem remaining_scanFrom_le (t : Tables) (tabWidth : Nat) (x : Scan σ) (active : Array Nat) :
    CharStream.remaining (scanFrom t tabWidth x active).stream + (scanFrom t tabWidth x active).read
      ≤ CharStream.remaining x.stream + x.read := by
  fun_induction scanFrom t tabWidth x active with
  | case1 x active stream h =>
    have := CharStream.remaining_read_le x.stream
    rw [h] at this
    simp only at this ⊢
    omega
  | case2 x active e stream h =>
    have := CharStream.remaining_read_le x.stream
    rw [h] at this
    simp only at this ⊢
    omega
  | case3 x active c stream h this after hEmpty =>
    simp only [after, Scan.next]
    omega
  | case4 x active c stream h this after hEmpty ih =>
    simp only [after, Scan.next] at ih ⊢
    omega

/-- The longest match is neither empty nor longer than what was read. -/
def Scan.Sound (x : Scan σ) : Prop := ∀ m ∈ x.best, 1 ≤ m.length ∧ m.length ≤ x.read

omit [CharStream σ] in
/-- A match at the character that was just read is as long as what was read. -/
theorem Scan.Sound.next {t : Tables} {tabWidth : Nat} {x : Scan σ} {active : Array Nat}
    {stream : σ} {c : Char} (h : x.Sound) : (x.next t tabWidth active stream c).1.Sound := by
  intro m hm
  simp only [Scan.next] at hm ⊢
  split at hm
  · cases hm
    exact ⟨Nat.le_add_left .., Nat.le_refl _⟩
  · have := h m hm
    omega

/-- A sound scan stays sound while it reads on. -/
theorem sound_scanFrom (t : Tables) (tabWidth : Nat) {x : Scan σ} (active : Array Nat)
    (h : x.Sound) : (scanFrom t tabWidth x active).Sound := by
  fun_induction scanFrom t tabWidth x active with
  | case1 => exact h
  | case2 => exact h
  | case3 => exact h.next
  | case4 _ _ _ _ _ _ _ _ ih => exact ih h.next

end Lexwright

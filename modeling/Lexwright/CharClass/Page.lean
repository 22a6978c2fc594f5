import Lexwright.Text.Escape

/-!
# `Lexwright.CharClass.Page`: membership of 256 consecutive codepoints

A page is a word of 256 bits, one for each codepoint that shares all but its low eight bits. Bit
ranges of any width are built here.
-/

set_option autoImplicit false

namespace Lexwright

/-- The word whose bits from `first` to `last` are set, as far as the word reaches. -/
def bitRange (width first last : Nat) : BitVec width :=
  (BitVec.allOnes (last + 1 - first)).setWidth width <<< first

/-- The bits of a range are those between its ends that the word has. -/
theorem getLsbD_bitRange (width first last i : Nat) :
    (bitRange width first last).getLsbD i = decide (i < width ∧ first ≤ i ∧ i ≤ last) := by
  unfold bitRange
  rw [BitVec.getLsbD_shiftLeft, BitVec.getLsbD_setWidth, BitVec.getLsbD_allOnes]
  by_cases hw : i < width
  · by_cases hf : first ≤ i
    · simp only [hw, hf, Nat.not_lt.2 hf, show i - first < width by omega, decide_true,
        decide_false, Bool.not_false, Bool.true_and, true_and]
      exact decide_eq_decide.2 (by omega)
    · simp [hf, Nat.lt_of_not_le hf]
  · simp [hw]

/-- Membership of 256 codepoints. -/
abbrev Page := BitVec 256

instance : LawfulBEq Page := inferInstance

namespace Page

/-- No codepoint. -/
def empty : Page := 0

/-- Every codepoint. -/
def full : Page := BitVec.allOnes 256

/-- Whether a codepoint of the page is a member. -/
def contains (p : Page) (bit : Nat) : Bool := p.getLsbD bit

/-- Sets the bits from `first` to `last`. -/
def setRange (p : Page) (first last : Nat) : Page := p ||| bitRange 256 first last

/-- Sets one bit. -/
def set (p : Page) (bit : Nat) : Page := p.setRange bit bit

/-- Number of members. -/
def count (p : Page) : Nat := (List.range 256).countP p.contains

/-- The four words of 64 bits, lowest bits first. -/
def words (p : Page) : List (BitVec 64) := (List.range 4).map fun i => p.extractLsb' (64 * i) 64

/-- The words, highest bits first. -/
def display (p : Page) : String := String.intercalate "_" (p.words.reverse.map Text.hexWord)

/-- The words as numbers, lowest bits first. -/
def debug (p : Page) : String :=
  "BitVec256([" ++ String.intercalate ", " (p.words.map fun w => "0x" ++ Text.hexWord w) ++ "])"

end Page

end Lexwright

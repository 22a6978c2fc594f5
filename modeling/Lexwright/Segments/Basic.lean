import Lexwright.SortedSet
import Lexwright.Text.CaseMap
import Lexwright.Text.Escape
import Lexwright.Text.Scalar

/-!
# `Lexwright.Segments.Basic`: sets of codepoint ranges

A segment is a closed range of codepoints. A set of segments is ordered by first, then by last
codepoint. Its segments may touch or overlap until the set is normalized.

* `Seg`: a range that is never empty.
* `Segments.Covers`: a codepoint lies in one of the segments.
* `Segments.contains`: the look-up, which asks one segment only. It decides `Covers` on
  normalized sets.
* `Segments.normalize`: joins the segments that touch or overlap; `apart_coalesce` says that the
  result has a gap between any two segments.
* `Segments.complement`, `Segments.withCaseVariants`: the characters outside a set, and a set with
  the other letter case of its characters.
* `Segments.display`: a set as it appears in messages.
-/

set_option autoImplicit false

namespace Lexwright

open Text

/-- The codepoints from `first` to `last`. -/
structure Seg where
  first : Nat
  last : Nat
  first_le_last : first ≤ last := by omega
deriving DecidableEq

namespace Seg

/-- A range is determined by its ends. -/
theorem ext {s t : Seg} (hfirst : s.first = t.first) (hlast : s.last = t.last) : s = t := by
  cases s
  cases t
  cases hfirst
  cases hlast
  rfl

instance : Hashable Seg := ⟨fun s => mixHash (hash s.first) (hash s.last)⟩

/-- Segments are ordered by their first codepoint, then by their last. -/
instance : TotalOrder Seg where
  lt a b := decide (a.first < b.first ∨ a.first = b.first ∧ a.last < b.last)
  irrefl a := by simp
  trans h k := by simp only [decide_eq_true_eq] at h k ⊢; omega
  total a b := by
    obtain ⟨a₁, a₂, ha⟩ := a
    obtain ⟨b₁, b₂, hb⟩ := b
    simp only [decide_eq_true_eq, Seg.mk.injEq]
    omega

/-- Segments are ordered by their first, and then by their last codepoint. -/
theorem lt_iff {a b : Seg} :
    TotalOrder.lt a b = true ↔ a.first < b.first ∨ a.first = b.first ∧ a.last < b.last := by
  simp [TotalOrder.lt]

/-- The range from `first` to `last`, unless it is empty. -/
def ofBounds? (first last : Nat) : Option Seg :=
  if h : first ≤ last then some ⟨first, last, h⟩ else none

/-- The range of one codepoint. -/
def ofCode (code : Nat) : Seg := ⟨code, code, Nat.le_refl code⟩

/-- The codepoint lies in the range. -/
def Covers (s : Seg) (code : Nat) : Prop := s.first ≤ code ∧ code ≤ s.last

instance (s : Seg) (code : Nat) : Decidable (s.Covers code) :=
  inferInstanceAs (Decidable (_ ∧ _))

/-- The part of the range below the surrogate gap and the part between the gap and the last
codepoint, as far as they exist. -/
def scalarParts (s : Seg) : List Seg :=
  (ofBounds? s.first (min s.last (gapFirst - 1))).toList ++
    (ofBounds? (max s.first (gapLast + 1)) (min s.last maxCode)).toList

/-- Number of codepoints. -/
def size (s : Seg) : Nat := s.last - s.first + 1

end Seg

/-- A set of segments. -/
abbrev Segments := SortedSet Seg

namespace Segments

/-- The set of the given ranges. Empty ranges are dropped. -/
def ofBounds (ranges : List (Nat × Nat)) : Segments :=
  SortedSet.ofList (ranges.filterMap fun r => Seg.ofBounds? r.1 r.2)

/-- The set with one more range, unless that range is empty. -/
def insertBounds (s : Segments) (first last : Nat) : Segments :=
  match Seg.ofBounds? first last with
  | some seg => s.insert seg
  | none => s

/-- The codepoint of one character. -/
def ofChar (c : Char) : Segments := SortedSet.singleton (Seg.ofCode c.toNat)

/-- The codepoint lies in one of the segments. -/
def Covers (s : Segments) (code : Nat) : Prop := ∃ seg ∈ s.toList, seg.Covers code

/-- Whether the codepoint lies in one of the segments. -/
def covers (s : Segments) (code : Nat) : Bool := s.toList.any fun seg => decide (seg.Covers code)

/-- The test by all the segments decides what they cover. -/
theorem covers_iff {s : Segments} {code : Nat} : s.covers code = true ↔ s.Covers code := by
  simp [covers, Covers]

/-- Looks the codepoint up in the last segment that starts at or before it. -/
def contains (s : Segments) (code : Nat) : Bool :=
  match (s.toList.takeWhile (·.first ≤ code)).getLast? with
  | some seg => code ≤ seg.last
  | none => false

/-- Joins neighbours that touch or overlap, from left to right. -/
def coalesce : List Seg → List Seg
  | [] => []
  | [s] => [s]
  | s :: t :: rest =>
    if s.last + 1 < t.first then s :: coalesce (t :: rest)
    else coalesce (⟨s.first, max s.last t.last, Nat.le_trans s.first_le_last (Nat.le_max_left ..)⟩
      :: rest)
termination_by l => l.length

/-- There is a gap between any two of the segments. -/
abbrev Apart (segs : List Seg) : Prop := segs.Pairwise fun a b => a.last + 1 < b.first

/-- Segments with gaps between them are in order. -/
theorem Apart.increasing {segs : List Seg} (h : Apart segs) : Increasing segs :=
  h.imp fun {a b} hab => Seg.lt_iff.2 (Or.inl (by have := a.first_le_last; omega))

/-- Joining keeps every lower bound of the first codepoints. -/
theorem le_first_of_mem_coalesce {least : Nat} {segs : List Seg} {x : Seg}
    (h : ∀ y ∈ segs, least ≤ y.first) (hx : x ∈ coalesce segs) : least ≤ x.first := by
  fun_induction coalesce segs with
  | case1 => cases hx
  | case2 => exact h x hx
  | case3 s t rest hgap ih =>
    rcases List.mem_cons.1 hx with rfl | hx
    · exact h _ (by simp)
    · exact ih (fun y hy => h y (by simp [List.mem_cons.1 hy])) hx
  | case4 s t rest hgap ih =>
    refine ih (fun y hy => ?_) hx
    rcases List.mem_cons.1 hy with rfl | hy
    · exact h s (by simp)
    · exact h y (by simp [hy])

/-- Segments in order of their first codepoint are apart once they are joined. -/
theorem apart_coalesce {segs : List Seg} (h : segs.Pairwise fun a b => a.first ≤ b.first) :
    Apart (coalesce segs) := by
  fun_induction coalesce segs with
  | case1 => exact .nil
  | case2 => simp
  | case3 s t rest hgap ih =>
    have hTail := (List.pairwise_cons.1 h).2
    refine List.pairwise_cons.2 ⟨fun x hx => ?_, ih hTail⟩
    have hLeast : ∀ y ∈ t :: rest, t.first ≤ y.first := fun y hy => by
      rcases List.mem_cons.1 hy with rfl | hy
      · exact Nat.le_refl _
      · exact (List.pairwise_cons.1 hTail).1 y hy
    have := le_first_of_mem_coalesce hLeast hx
    omega
  | case4 s t rest hgap ih =>
    obtain ⟨h₁, h₂⟩ := List.pairwise_cons.1 h
    exact ih (List.pairwise_cons.2
      ⟨fun y hy => h₁ y (by simp [hy]), (List.pairwise_cons.1 h₂).2⟩)

/-- The segments of a set come in the order of their first codepoints. -/
theorem pairwise_first_le (s : Segments) : s.toList.Pairwise fun a b => a.first ≤ b.first :=
  s.increasing.imp fun {a b} h => by have := Seg.lt_iff.1 h; omega

/-- The same codepoints in segments that neither touch nor overlap. -/
def normalize (s : Segments) : Segments :=
  ⟨coalesce s.toList, (apart_coalesce s.pairwise_first_le).increasing⟩

/-- The set with the characters from `first` to `last`; the surrogate gap is left out. Codepoints
beyond the last character stay. -/
def insertScalars (s : Segments) (first last : Nat) : Segments :=
  if last < first then s
  else if last < gapFirst ∨ gapLast < first then s.insertBounds first last
  else
    let low := if first < gapFirst then s.insertBounds first (gapFirst - 1) else s
    if gapLast < last then low.insertBounds (gapLast + 1) last else low

/-- The first `n` characters, segment by segment. A character covered twice is listed twice. -/
def firstChars (s : Segments) (n : Nat) : List Char :=
  ((s.toList.flatMap Seg.scalarParts).foldl
    (fun (found : List Nat × Nat) part =>
      let count := min found.2 part.size
      (found.1 ++ List.range' part.first count, found.2 - count))
    ([], n)).1.filterMap charOfCode?

/-- Number of characters, segment by segment. -/
def charCount (s : Segments) : Nat :=
  (s.toList.flatMap Seg.scalarParts).foldr (fun part n => part.size + n) 0

/-- Adds to `found` the characters between the segments, from `start` on. -/
def complementFrom (found : Segments) (start : Nat) : List Seg → Segments
  | [] => if start ≤ maxCode then found.insertScalars start maxCode else found
  | seg :: rest =>
    let found := if start < seg.first then found.insertScalars start (seg.first - 1) else found
    complementFrom found (seg.last + 1) rest

/-- The characters that no segment of a normalized set covers. -/
def complement (s : Segments) : Segments := complementFrom .empty 0 s.toList

/-- The images, in either letter case, of the covered codepoints. -/
def variants (s : Segments) : List Nat :=
  (casePairs.filter fun p => s.covers p.1).map (·.2)

/-- The covered codepoints and their lowercase and uppercase images, normalized. -/
def withCaseVariants (s : Segments) : Segments :=
  normalize (s.union (SortedSet.ofList (s.variants.map Seg.ofCode)))

end Segments

/-- A codepoint between quotes; one that is no character is written by its number. -/
def quoteCode (code : Nat) : String :=
  let shown := match charOfCode? code with
    | some c => escapeChar c
    | none => escapeCode code
  "'" ++ shown ++ "'"

/-- One quoted codepoint, or two with a dash between them. -/
def Seg.display (s : Seg) : String :=
  if s.first = s.last then quoteCode s.first
  else quoteCode s.first ++ "-" ++ quoteCode s.last

/-- The segments, separated by commas. -/
def Segments.display (s : Segments) : String :=
  String.intercalate ", " (s.toList.map Seg.display)

/-- The bounds of the segments as numbers. -/
def Segments.debug (s : Segments) : String :=
  let bounds := s.toList.map fun seg => s!"Seg(0x{hex seg.first}, 0x{hex seg.last})"
  "Segments(" ++ String.intercalate ", " bounds ++ ")"

end Lexwright

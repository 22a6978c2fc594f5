import Lexwright.Segments.Basic

/-!
# `Lexwright.Segments.Split`: two sets cut along each other's bounds

Both sets are scanned from left to right. Where two segments overlap, the part that they share
and the part before it are done, and what is left of the longer one is scanned on.

* `scan`: the parts, each with the side it belongs to.
* `split`: the parts as three sets.
* `refine`: a set cut along the bounds of another, with the rest of the other.
* `Split.ofBounds`: the parts of two ranges, by cases on their bounds; `ofBounds_eq_split` says that
  bounds in order give what `split` gives.
-/

set_option autoImplicit false

namespace Lexwright

/-- Where the codepoints of a part lie: in both sets or in one of them. -/
inductive Side where
  | common
  | left
  | right
deriving DecidableEq, Repr

/-- The parts of two sets: shared, only in the left one, only in the right one. -/
structure Split where
  common : Segments
  left : Segments
  right : Segments
deriving DecidableEq

namespace Segments

/-- The parts of two lists of segments, from left to right. -/
def scan : List Seg → List Seg → List (Side × Seg)
  | [], bs => bs.map (.right, ·)
  | a :: as, [] => (a :: as).map (.left, ·)
  | a :: as, b :: bs =>
    have := a.first_le_last
    have := b.first_le_last
    if hab : a.last < b.first then (.left, a) :: scan as (b :: bs)
    else if hba : b.last < a.first then (.right, b) :: scan (a :: as) bs
    else
      let lead : List (Side × Seg) :=
        if h : a.first < b.first then [(.left, ⟨a.first, b.first - 1, by omega⟩)]
        else if h : b.first < a.first then [(.right, ⟨b.first, a.first - 1, by omega⟩)]
        else []
      let shared : Seg := ⟨max a.first b.first, min a.last b.last, by omega⟩
      -- what is left of the longer segment meets the next one of the other side
      lead ++ (.common, shared) ::
        (if h : b.last < a.last then scan (⟨b.last + 1, a.last, h⟩ :: as) bs
        else if h : a.last < b.last then scan as (⟨a.last + 1, b.last, h⟩ :: bs)
        else scan as bs)
termination_by as bs => as.length + bs.length

/-- The segments of the parts on one side. -/
def onSide (side : Side) (parts : List (Side × Seg)) : Segments :=
  SortedSet.ofList (parts.filterMap fun p => if p.1 = side then some p.2 else none)

/-- The parts of two sets. -/
def split (s t : Segments) : Split :=
  let parts := scan s.toList t.toList
  { common := onSide .common parts, left := onSide .left parts, right := onSide .right parts }

/-- Cuts `s` along the bounds of `t` and adds the rest of `t`. The flag says whether `t` has
any part at all: if it has none, `s` stays as it is. -/
def refine (s t : Segments) : Segments × Bool :=
  let parts := s.split t
  if parts.common.isEmpty && parts.right.isEmpty then (s, false)
  else (parts.left.union (parts.common.union parts.right), true)

end Segments

namespace Split

/-- The parts with the two sides exchanged. -/
def swap (parts : Split) : Split := { parts with left := parts.right, right := parts.left }

/-- The parts of the range from `a` to `b` and the range from `c` to `d`, of which the first starts
before the second, or starts with it and does not end after it. -/
def ofOrderedBounds (a b c d : Nat) : Split :=
  if a < c then
    if b < c then ⟨.empty, Segments.ofBounds [(a, b)], Segments.ofBounds [(c, d)]⟩
    else if b ≤ d then
      ⟨Segments.ofBounds [(c, b)], Segments.ofBounds [(a, c - 1)], Segments.ofBounds [(b + 1, d)]⟩
    else ⟨Segments.ofBounds [(c, d)], Segments.ofBounds [(a, c - 1), (d + 1, b)], .empty⟩
  else ⟨Segments.ofBounds [(a, b)], .empty, Segments.ofBounds [(b + 1, d)]⟩

/-- The parts of the range from `a` to `b` and the range from `c` to `d`. The bounds decide where
the parts are cut even if they are out of order: a range that ends before it starts is no part
itself, and may still cut the other one. -/
def ofBounds (a b c d : Nat) : Split :=
  if a < c ∨ a = c ∧ b ≤ d then ofOrderedBounds a b c d else (ofOrderedBounds c d a b).swap

/-- The parts, each normalized. -/
def normalize (parts : Split) : Split :=
  { common := parts.common.normalize, left := parts.left.normalize, right := parts.right.normalize }

/-- Bounds in order give the parts of two sets of one segment. -/
theorem ofBounds_eq_split (s t : Seg) :
    ofBounds s.first s.last t.first t.last = Segments.split (.singleton s) (.singleton t) := by
  obtain ⟨a, b, hab⟩ := s
  obtain ⟨c, d, hcd⟩ := t
  have hEmpty : (SortedSet.empty : Segments) = SortedSet.ofList [] := by simp [SortedSet.ofList]
  simp only [ofBounds, ofOrderedBounds, swap, Segments.split, SortedSet.singleton, Segments.scan,
    Segments.ofBounds, Segments.onSide, Seg.ofBounds?, hEmpty, List.map_cons, List.map_nil]
  by_cases hOrder : a < c ∨ a = c ∧ b ≤ d
  · rw [if_pos hOrder]
    by_cases hac : a < c
    · by_cases hbc : b < c
      · simp [hac, hbc, hab, hcd]
      · grind
    · grind
  · rw [if_neg hOrder]
    -- here the second range comes first, either before the other one or into it
    by_cases hca : c < a
    · by_cases hda : d < a
      · grind
      · grind
    · grind

/-- The three parts of a split. -/
def display (parts : Split) : String :=
  s!"<common: {parts.common.display}, internal: {parts.left.display}, " ++
    s!"external: {parts.right.display}>"

end Split

end Lexwright

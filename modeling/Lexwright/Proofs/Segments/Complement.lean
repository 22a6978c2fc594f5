import Lexwright.Proofs.Segments.Cover

/-!
# `Lexwright.Proofs.Segments.Complement`: negating a set twice

A normalized set is known by the codepoints that it covers: a segment ends where the next codepoint
is not covered. So what two complements do to a set follows from what one does to its codepoints.

* `IsNormal.not_covers_behind`, `IsNormal.not_covers_before`: segments of a normalized set do not
  stop before they must.
* `IsNormal.ext`: normalized sets that cover the same codepoints are equal.
* `complement_exact`: what the complement covers, and which sets are their complement's complement.
  Segments may lie across the surrogate gap, begin in it or end in it.
-/

set_option autoImplicit false

namespace Lexwright.Segments

open Text

variable {s t : Segments} {a : Seg} {code : Nat}

/-! ### A normalized set is known by its codepoints -/

/-- The codepoint behind a segment is not covered. -/
theorem IsNormal.not_covers_behind (h : s.IsNormal) (ha : a ∈ s.toList) :
    ¬s.Covers (a.last + 1) := by
  rintro ⟨x, hx, hfirst, hlast⟩
  have := a.first_le_last
  rcases h.gap a ha x hx with rfl | hgap | hgap
  · omega
  · omega
  · omega

/-- Nor is the one before it. -/
theorem IsNormal.not_covers_before (h : s.IsNormal) (ha : a ∈ s.toList) (hcode : code + 1 = a.first) :
    ¬s.Covers code := by
  rintro ⟨x, hx, hfirst, hlast⟩
  have := a.first_le_last
  rcases h.gap a ha x hx with rfl | hgap | hgap
  · omega
  · omega
  · omega

/-- A segment of a normalized set is one of every normalized set with the same codepoints. -/
theorem IsNormal.mem_of_covers (hs : s.IsNormal) (ht : t.IsNormal)
    (h : ∀ code, s.Covers code ↔ t.Covers code) (ha : a ∈ s.toList) : a ∈ t.toList := by
  have hsize := a.first_le_last
  obtain ⟨b, hb, hlow, hhigh⟩ := (h a.first).1 ⟨a, ha, Nat.le_refl _, hsize⟩
  -- Where `b` began earlier, `s` would cover the codepoint before `a`.
  have hfirst : b.first = a.first := by
    refine Nat.le_antisymm hlow (Nat.le_of_not_lt fun hlt => ?_)
    have hbefore : t.Covers (a.first - 1) := ⟨b, hb, by omega, by omega⟩
    exact hs.not_covers_before ha (by omega) ((h _).2 hbefore)
  -- Where one of the two ended earlier, its set would not stop there.
  have hlast : b.last = a.last := by
    rcases Nat.lt_trichotomy b.last a.last with hlt | heq | hlt
    · have hcode : s.Covers (b.last + 1) := ⟨a, ha, by omega, by omega⟩
      exact absurd ((h _).1 hcode) (ht.not_covers_behind hb)
    · exact heq
    · have hcode : t.Covers (a.last + 1) := ⟨b, hb, by omega, by omega⟩
      exact absurd ((h _).2 hcode) (hs.not_covers_behind ha)
  exact Seg.ext hfirst hlast ▸ hb

/-- Normalized sets that cover the same codepoints are equal. -/
theorem IsNormal.ext (hs : s.IsNormal) (ht : t.IsNormal)
    (h : ∀ code, s.Covers code ↔ t.Covers code) : s = t :=
  SortedSet.ext fun _ => ⟨hs.mem_of_covers ht h, ht.mem_of_covers hs fun code => (h code).symm⟩

/-! ### Two complements -/

/-- Two complements keep the characters of a set and drop its surrogates. -/
theorem covers_complement_complement (h : s.IsNormal) (hbounded : s.Bounded) :
    s.complement.complement.Covers code ↔ code.isValidChar ∧ s.Covers code := by
  rw [covers_complement h.complement (scalars_complement h hbounded).bounded,
    covers_complement h hbounded]
  refine and_congr_right fun hvalid => ?_
  exact ⟨fun hnot => Classical.not_not.1 fun hcode => hnot ⟨hvalid, hcode⟩,
    fun hcode hnot => hnot.2 hcode⟩

/-- The segments lie outside the surrogate gap exactly if they cover nothing of it. -/
theorem scalars_iff (hbounded : s.Bounded) :
    s.Scalars ↔ ∀ code, gapFirst ≤ code → code ≤ gapLast → ¬s.Covers code := by
  constructor
  · intro h code hfirst hlast hcode
    exact (isValidChar_iff.1 (h code hcode)).2 ⟨hfirst, hlast⟩
  · intro h code hcode
    have ⟨x, hx, _, hlast⟩ := hcode
    exact isValidChar_iff.2 ⟨Nat.le_trans hlast (hbounded x hx),
      fun hgap => h code hgap.1 hgap.2 hcode⟩

/-- The complement of a normalized set is normalized. It covers the characters that the set does not
cover, and no surrogate. The complement of the complement is the set again exactly if the set covers
no surrogate. -/
theorem complement_exact (h : s.IsNormal) (hbounded : s.Bounded) :
    s.complement.IsNormal ∧
      (∀ code, s.complement.Covers code ↔
        code ≤ maxCode ∧ ¬(gapFirst ≤ code ∧ code ≤ gapLast) ∧ ¬s.Covers code) ∧
      (s.complement.complement = s ↔
        ∀ code, gapFirst ≤ code → code ≤ gapLast → ¬s.Covers code) := by
  refine ⟨h.complement, fun code => ?_, ?_⟩
  · rw [covers_complement h hbounded, isValidChar_iff, and_assoc]
  · rw [← scalars_iff hbounded]
    constructor
    · intro heq code hcode
      rw [← heq, covers_complement_complement h hbounded] at hcode
      exact hcode.1
    · intro hscalars
      refine h.complement.complement.ext h fun code => ?_
      rw [covers_complement_complement h hbounded]
      exact and_iff_right_of_imp (hscalars code)

/-- Digits, codepoints across the surrogate gap, and the last codepoint. -/
def straddling : Segments where
  toList := [⟨0x30, 0x39, by decide⟩, ⟨0xd7ff, 0xe000, by decide⟩, ⟨0x10ffff, 0x10ffff, by decide⟩]
  increasing := by decide

/-- What is left of `straddling` without the surrogates. It touches the gap on either side. -/
def touching : Segments where
  toList := [⟨0x30, 0x39, by decide⟩, ⟨0xd7ff, 0xd7ff, by decide⟩, ⟨0xe000, 0xe000, by decide⟩,
    ⟨0x10ffff, 0x10ffff, by decide⟩]
  increasing := by decide

/-- A set across the gap loses its surrogates when it is negated twice, and one that touches the gap
stays as it is. -/
theorem complement_exact_gap :
    (straddling.IsNormal ∧ straddling.Bounded ∧ ¬straddling.complement.Covers 0xdc00 ∧
      straddling.complement.complement ≠ straddling) ∧
    touching.IsNormal ∧ touching.Bounded ∧ touching.complement.complement = touching := by
  have hstraddling : straddling.IsNormal ∧ straddling.Bounded := by
    unfold IsNormal Bounded
    decide
  have htouching : touching.IsNormal ∧ touching.Bounded := by
    unfold IsNormal Bounded
    decide
  obtain ⟨-, hcovers, htwice⟩ := complement_exact hstraddling.1 hstraddling.2
  refine ⟨⟨hstraddling.1, hstraddling.2, fun h => ?_, fun h => ?_⟩, htouching.1, htouching.2, ?_⟩
  · exact ((hcovers _).1 h).2.1 (by decide)
  · exact htwice.1 h 0xdc00 (by decide) (by decide) (covers_iff.1 (by decide))
  · refine (complement_exact htouching.1 htouching.2).2.2.2 fun code hfirst hlast => ?_
    rintro ⟨x, hx, hcode⟩
    have hout : ∀ x ∈ touching.toList, x.last < gapFirst ∨ gapLast < x.first := by decide
    have := hout x hx
    have := hcode.1
    have := hcode.2
    omega

end Lexwright.Segments

import Lexwright.Segments.Basic

/-!
# `Lexwright.Proofs.Segments.Cover`: which codepoints a set of segments covers

Each operation on sets of segments is pinned down by the codepoints that its result covers:

* `covers_insert`, `covers_union`, `covers_ofList`, `covers_insertBounds`,
  `covers_insertScalars`: the operations that add segments.
* `covers_normalize`: normalizing keeps the codepoints. `isNormal_normalize`: there is a gap
  between any two segments of the result.
* `contains_iff_covers`: on a normalized set, the look-up of `Segments.contains`, which asks one
  segment only, decides membership.
* `covers_complement`: the complement of a normalized set covers the other scalar values, and it is
  normalized again (`IsNormal.complement`).
* `covers_withCaseVariants`: the covered codepoints and their images in either letter case.

`Scalars` says that a set covers scalar values only. Every operation that a lexicon uses keeps it.
`Bounded` asks less: no codepoint lies beyond the last one.
-/

set_option autoImplicit false

namespace Lexwright.Segments

open Text

variable {s t : Segments} {seg : Seg} {code first last : Nat}

/-! ### Adding segments -/

/-- No segment covers nothing. -/
theorem not_covers_empty : ¬Covers SortedSet.empty code := by
  rintro ⟨seg, hseg, -⟩
  exact SortedSet.not_mem_empty seg hseg

/-- An inserted segment covers its codepoints, and the others theirs. -/
theorem covers_insert : Covers (SortedSet.insert s seg) code ↔ seg.Covers code ∨ s.Covers code := by
  constructor
  · rintro ⟨x, hx, hcode⟩
    rcases SortedSet.mem_insert.1 hx with rfl | hx
    · exact Or.inl hcode
    · exact Or.inr ⟨x, hx, hcode⟩
  · rintro (hcode | ⟨x, hx, hcode⟩)
    · exact ⟨seg, SortedSet.mem_insert.2 (Or.inl rfl), hcode⟩
    · exact ⟨x, SortedSet.mem_insert.2 (Or.inr hx), hcode⟩

/-- The union covers what one of the sets covers. -/
theorem covers_union : Covers (SortedSet.union s t) code ↔ s.Covers code ∨ t.Covers code := by
  constructor
  · rintro ⟨x, hx, hcode⟩
    rcases SortedSet.mem_union.1 hx with hx | hx
    · exact Or.inl ⟨x, hx, hcode⟩
    · exact Or.inr ⟨x, hx, hcode⟩
  · rintro (⟨x, hx, hcode⟩ | ⟨x, hx, hcode⟩)
    · exact ⟨x, SortedSet.mem_union.2 (Or.inl hx), hcode⟩
    · exact ⟨x, SortedSet.mem_union.2 (Or.inr hx), hcode⟩

/-- A list of segments covers what one of them covers. -/
theorem covers_ofList {segs : List Seg} :
    Covers (SortedSet.ofList segs) code ↔ ∃ x ∈ segs, x.Covers code := by
  constructor
  · rintro ⟨x, hx, hcode⟩
    exact ⟨x, SortedSet.mem_ofList.1 hx, hcode⟩
  · rintro ⟨x, hx, hcode⟩
    exact ⟨x, SortedSet.mem_ofList.2 hx, hcode⟩

/-- The set of one character covers this character only. -/
theorem covers_ofChar (c : Char) : (ofChar c).Covers code ↔ code = c.toNat := by
  simp only [Covers, ofChar, SortedSet.singleton, List.mem_singleton, exists_eq_left, Seg.Covers,
    Seg.ofCode]
  omega

/-- Bounds cover what lies between them. Bounds out of order cover nothing. -/
theorem covers_insertBounds :
    (s.insertBounds first last).Covers code ↔ (first ≤ code ∧ code ≤ last) ∨ s.Covers code := by
  unfold insertBounds Seg.ofBounds?
  by_cases h : first ≤ last
  · rw [dif_pos h]
    exact covers_insert
  · rw [dif_neg h]
    exact (or_iff_right (by omega)).symm

/-- The codepoints from `first` to `last` join the set, the surrogates among them excepted. -/
theorem covers_insertScalars :
    (s.insertScalars first last).Covers code ↔
      (first ≤ code ∧ code ≤ last ∧ ¬(gapFirst ≤ code ∧ code ≤ gapLast)) ∨ s.Covers code := by
  have hgap : gapFirst ≤ gapLast := by decide
  have hpos : 0 < gapFirst := by decide
  unfold insertScalars
  by_cases hempty : last < first
  · rw [if_pos hempty]
    exact (or_iff_right (by omega)).symm
  · rw [if_neg hempty]
    by_cases hapart : last < gapFirst ∨ gapLast < first
    · rw [if_pos hapart, covers_insertBounds]
      refine or_congr_left ⟨fun h => ⟨h.1, h.2, by omega⟩, fun h => ⟨h.1, h.2.1⟩⟩
    · rw [if_neg hapart]
      -- The range meets the gap: what is left of it lies on one side or on both.
      by_cases hlow : first < gapFirst
      · by_cases hhigh : gapLast < last
        · simp only [if_pos hlow, if_pos hhigh, covers_insertBounds, ← or_assoc]
          exact or_congr_left (by omega)
        · simp only [if_pos hlow, if_neg hhigh, covers_insertBounds]
          exact or_congr_left (by omega)
      · by_cases hhigh : gapLast < last
        · simp only [if_neg hlow, if_pos hhigh, covers_insertBounds]
          exact or_congr_left (by omega)
        · simp only [if_neg hlow, if_neg hhigh]
          -- The gap holds the whole range.
          exact (or_iff_right (by omega)).symm

/-! ### Normalized sets -/

/-- There is a gap between any two segments of the set. -/
def IsNormal (s : Segments) : Prop := Apart s.toList

/-- A set is normalized when any two different members have a gap between them, on either side. -/
theorem isNormal_of_mem
    (h : ∀ a ∈ s.toList, ∀ b ∈ s.toList, a = b ∨ a.last + 1 < b.first ∨ b.last + 1 < a.first) :
    s.IsNormal := by
  -- Of two members, the set lists the lower one first: only the gap behind it is possible.
  refine List.Pairwise.imp_of_mem (fun {a b} ha hb hab => ?_) s.increasing
  have hlt := Seg.lt_iff.1 hab
  have hab := a.first_le_last
  have hbb := b.first_le_last
  rcases h a ha b hb with rfl | hgap | hgap
  · omega
  · exact hgap
  · omega

/-- Two segments of a normalized set have a gap between them. -/
theorem IsNormal.gap (h : s.IsNormal) :
    ∀ a ∈ s.toList, ∀ b ∈ s.toList, a = b ∨ a.last + 1 < b.first ∨ b.last + 1 < a.first :=
  List.Pairwise.forall_of_forall_of_flip (fun _ _ => Or.inl rfl)
    (h.imp fun hab => Or.inr (Or.inl hab)) (h.imp fun hab => Or.inr (Or.inr hab))

/-- The empty set is normalized. -/
theorem isNormal_empty : IsNormal SortedSet.empty := List.Pairwise.nil

/-- The set of one character is normalized. -/
theorem isNormal_ofChar (c : Char) : (ofChar c).IsNormal := List.pairwise_singleton ..

/-- Normalizing gives a normalized set. -/
theorem isNormal_normalize (s : Segments) : s.normalize.IsNormal :=
  apart_coalesce s.pairwise_first_le

/-- A segment with a gap to every member can join a normalized set. -/
theorem IsNormal.insert (h : s.IsNormal)
    (hgap : ∀ a ∈ s.toList, a.last + 1 < seg.first ∨ seg.last + 1 < a.first) :
    IsNormal (SortedSet.insert s seg) := by
  refine isNormal_of_mem fun a ha b hb => ?_
  rcases SortedSet.mem_insert.1 ha with hseg | ha
  · subst hseg
    rcases SortedSet.mem_insert.1 hb with hseg | hb
    · exact Or.inl hseg.symm
    · exact Or.inr (hgap b hb).symm
  · rcases SortedSet.mem_insert.1 hb with hseg | hb
    · exact Or.inr (hseg ▸ hgap a ha)
    · exact h.gap a ha b hb

/-- Joining neighbours keeps the codepoints. -/
theorem exists_mem_coalesce {segs : List Seg} (h : segs.Pairwise fun a b => a.first ≤ b.first) :
    (∃ x ∈ coalesce segs, x.Covers code) ↔ ∃ x ∈ segs, x.Covers code := by
  fun_induction coalesce segs with
  | case1 => exact Iff.rfl
  | case2 => exact Iff.rfl
  | case3 s t rest hgap ih =>
    have hrest := ih (List.pairwise_cons.1 h).2
    simp only [List.mem_cons, exists_eq_or_imp] at hrest ⊢
    rw [hrest]
  | case4 s t rest hgap ih =>
    obtain ⟨hs, hrest⟩ := List.pairwise_cons.1 h
    have hst : s.first ≤ t.first := hs t (by simp)
    rw [ih (List.pairwise_cons.2
      ⟨fun y hy => hs y (by simp [hy]), (List.pairwise_cons.1 hrest).2⟩)]
    simp only [List.mem_cons, exists_eq_or_imp]
    rw [← or_assoc]
    -- `s` reaches up to `t`, so together they cover what the joined segment covers.
    refine or_congr_left ?_
    show s.first ≤ code ∧ code ≤ max s.last t.last ↔
      (s.first ≤ code ∧ code ≤ s.last) ∨ t.first ≤ code ∧ code ≤ t.last
    have := t.first_le_last
    have := s.first_le_last
    omega

/-- Normalizing changes no codepoint: segments are joined only where they touch or overlap. -/
theorem covers_normalize : s.normalize.Covers code ↔ s.Covers code :=
  exists_mem_coalesce s.pairwise_first_le

/-- In a list of segments behind each other, the last segment that starts at or before a codepoint
is the only one that can cover it. -/
theorem covers_getLast?_takeWhile {segs : List Seg}
    (h : segs.Pairwise fun a b => a.last < b.first) :
    (∃ x ∈ (segs.takeWhile (·.first ≤ code)).getLast?, code ≤ x.last) ↔
      ∃ x ∈ segs, x.Covers code := by
  induction segs with
  | nil => simp
  | cons s rest ih =>
    obtain ⟨hs, hrest⟩ := List.pairwise_cons.1 h
    simp only [List.mem_cons, exists_eq_or_imp]
    by_cases hfirst : s.first ≤ code
    · rw [List.takeWhile_cons_of_pos (by simpa using hfirst), List.getLast?_cons]
      cases hlast : (rest.takeWhile (·.first ≤ code)).getLast? with
      | none =>
        -- No later segment starts early enough, so `s` is the last one.
        have hnone := (not_congr (ih hrest)).1 (by simp [hlast])
        rw [or_iff_left hnone]
        simp [Seg.Covers, hfirst]
      | some t =>
        -- `t` starts behind `s` and at or before the codepoint: `s` ends too early to cover it.
        have ht : t ∈ rest.takeWhile (·.first ≤ code) := List.mem_of_getLast? hlast
        have htfirst : t.first ≤ code := by
          simpa using List.all_eq_true.1 List.all_takeWhile t ht
        have hst := hs t (List.takeWhile_subset _ ht)
        have hnot : ¬s.Covers code := fun hcode => by
          have := hcode.2
          omega
        rw [or_iff_right hnot, ← ih hrest, hlast]
        simp
    · rw [List.takeWhile_cons_of_neg (by simpa using hfirst)]
      -- `s` starts too late, and so do the segments behind it.
      have hnot : ¬s.Covers code := fun hcode => hfirst hcode.1
      have hnone : ¬∃ x ∈ rest, x.Covers code := by
        rintro ⟨x, hx, hcode⟩
        have := hs x hx
        have := s.first_le_last
        have := hcode.1
        omega
      simp [hnot, hnone]

/-- The look-up of one segment decides membership where the segments do not overlap. -/
theorem contains_iff_covers_of_pairwise (h : s.toList.Pairwise fun a b => a.last < b.first) :
    s.contains code = true ↔ s.Covers code := by
  rw [Covers, ← covers_getLast?_takeWhile h]
  unfold contains
  cases (s.toList.takeWhile (·.first ≤ code)).getLast? with
  | none => simp
  | some seg => simp

/-- So it does in a normalized set. -/
theorem contains_iff_covers (h : s.IsNormal) : s.contains code = true ↔ s.Covers code :=
  contains_iff_covers_of_pairwise (h.imp fun hab => Nat.lt_of_succ_lt hab)

/-! ### Sets of scalar values -/

/-- The set covers scalar values only. -/
def Scalars (s : Segments) : Prop := ∀ code, s.Covers code → code.isValidChar

/-- No segment of characters reaches beyond the last character. -/
theorem Scalars.last_le (h : s.Scalars) (hseg : seg ∈ s.toList) : seg.last ≤ maxCode := by
  have hvalid : seg.last.isValidChar := h _ ⟨seg, hseg, seg.first_le_last, Nat.le_refl _⟩
  unfold Nat.isValidChar at hvalid
  unfold maxCode
  omega

/-- No segment reaches beyond the last codepoint. -/
def Bounded (s : Segments) : Prop := ∀ x ∈ s.toList, x.last ≤ maxCode

/-- Sets of characters end at the last character. -/
theorem Scalars.bounded (h : s.Scalars) : s.Bounded := fun _ hx => h.last_le hx

/-- The empty set has characters only. -/
theorem scalars_empty : Scalars SortedSet.empty := fun _ h => absurd h not_covers_empty

/-- The set of one character has characters only. -/
theorem scalars_ofChar (c : Char) : (ofChar c).Scalars := fun _ h =>
  (covers_ofChar c).1 h ▸ c.valid

/-- Normalizing a set of characters adds nothing that is no character. -/
theorem Scalars.normalize (h : s.Scalars) : s.normalize.Scalars := fun _ hcode =>
  h _ (covers_normalize.1 hcode)

/-- A range of characters keeps a set of scalar values. -/
theorem Scalars.insertScalars (h : s.Scalars) (c d : Char) :
    (s.insertScalars c.toNat d.toNat).Scalars := by
  intro code hcode
  rcases covers_insertScalars.1 hcode with ⟨hfirst, hlast, hgap⟩ | hcode
  · have hd : d.toNat.isValidChar := d.valid
    unfold gapFirst gapLast at hgap
    unfold Nat.isValidChar at hd ⊢
    omega
  · exact h code hcode

/-! ### The complement -/

/-- The characters are the codepoints outside of the surrogate gap. -/
theorem isValidChar_iff :
    code.isValidChar ↔ code ≤ maxCode ∧ ¬(gapFirst ≤ code ∧ code ≤ gapLast) := by
  unfold Nat.isValidChar maxCode gapFirst gapLast
  omega

/-- What the segments from `start` on leave uncovered joins the set found so far. -/
theorem covers_complementFrom {segs : List Seg} {found : Segments} {start : Nat}
    (hapart : Apart segs) (hstart : ∀ x ∈ segs, start ≤ x.first)
    (hlast : ∀ x ∈ segs, x.last ≤ maxCode) :
    (complementFrom found start segs).Covers code ↔
      (start ≤ code ∧ code.isValidChar ∧ ¬∃ x ∈ segs, x.Covers code) ∨ found.Covers code := by
  -- Each segment is passed with the set found before it, from the codepoint behind it.
  induction segs generalizing found start with
  | nil =>
    unfold complementFrom
    by_cases hend : start ≤ maxCode
    · rw [if_pos hend, covers_insertScalars, isValidChar_iff]
      simp
    · rw [if_neg hend, or_iff_right]
      intro h
      have := (isValidChar_iff.1 h.2.1).1
      omega
  | cons s rest ih =>
    obtain ⟨hs, hrest⟩ := List.pairwise_cons.1 hapart
    have hsstart := hstart s (by simp)
    have hslast := hlast s (by simp)
    have hsize := s.first_le_last
    refine (@ih _ (s.last + 1) hrest (fun x hx => Nat.le_of_lt (hs x hx))
      (fun x hx => hlast x (by simp [hx]))).trans ?_
    -- What lies before `s` is added now, and what lies behind it comes with the rest.
    have hbefore : (if start < s.first then found.insertScalars start (s.first - 1)
        else found).Covers code ↔
          (start ≤ code ∧ code < s.first ∧ code.isValidChar) ∨ found.Covers code := by
      by_cases hlt : start < s.first
      · rw [if_pos hlt, covers_insertScalars, isValidChar_iff]
        refine or_congr_left ⟨fun h => ⟨h.1, by omega, by omega, h.2.2⟩,
          fun h => ⟨h.1, by omega, h.2.2.2⟩⟩
      · rw [if_neg hlt, or_iff_right]
        omega
    have hlater : code < s.first → ¬∃ x ∈ rest, x.Covers code := by
      rintro hlt ⟨x, hx, hcode⟩
      have := hs x hx
      have := hcode.1
      omega
    simp only [List.mem_cons, exists_eq_or_imp, not_or]
    rw [hbefore, ← or_assoc]
    refine or_congr_left ?_
    unfold Seg.Covers
    by_cases hlt : code < s.first
    · have := hlater hlt
      unfold Seg.Covers at this
      constructor
      · rintro (h | h)
        · omega
        · exact ⟨h.1, h.2.2, by omega, this⟩
      · rintro h
        exact Or.inr ⟨h.1, hlt, h.2.1⟩
    · constructor
      · rintro (h | h)
        · exact ⟨by omega, h.2.1, by omega, h.2.2⟩
        · omega
      · rintro h
        exact Or.inl ⟨by omega, h.2.1, h.2.2.2⟩

/-- The complement of a normalized set covers the other scalar values. The set may cover
surrogates. -/
theorem covers_complement (hnormal : s.IsNormal) (hbounded : s.Bounded) :
    s.complement.Covers code ↔ code.isValidChar ∧ ¬s.Covers code := by
  unfold complement
  rw [covers_complementFrom hnormal (fun _ _ => Nat.zero_le _) hbounded,
    or_iff_left not_covers_empty]
  simp [Covers]

/-- The complement has characters only: the surrogate gap is left out. -/
theorem scalars_complement (hnormal : s.IsNormal) (hbounded : s.Bounded) :
    s.complement.Scalars := fun _ hcode => ((covers_complement hnormal hbounded).1 hcode).1

/-- Bounds behind all the segments keep the set normalized, if a gap is left. -/
theorem IsNormal.insertBounds (h : s.IsNormal) (hbefore : ∀ x ∈ s.toList, x.last + 1 < first) :
    (s.insertBounds first last).IsNormal := by
  unfold Segments.insertBounds Seg.ofBounds?
  by_cases hle : first ≤ last
  · rw [dif_pos hle]
    exact h.insert fun x hx => Or.inl (hbefore x hx)
  · rw [dif_neg hle]
    exact h

/-- A range that starts behind all members joins a normalized set; the surrogate gap keeps its two
parts apart. -/
theorem IsNormal.insertScalars (h : s.IsNormal) (hbefore : ∀ x ∈ s.toList, x.last + 1 < first) :
    (s.insertScalars first last).IsNormal := by
  have hgap : gapFirst ≤ gapLast := by decide
  unfold Segments.insertScalars
  by_cases hempty : last < first
  · rw [if_pos hempty]
    exact h
  · rw [if_neg hempty]
    by_cases hapart : last < gapFirst ∨ gapLast < first
    · rw [if_pos hapart]
      exact h.insertBounds hbefore
    · rw [if_neg hapart]
      have hlow : (if first < gapFirst then s.insertBounds first (gapFirst - 1)
          else s).IsNormal := by
        by_cases hfirst : first < gapFirst
        · rw [if_pos hfirst]
          exact h.insertBounds hbefore
        · rw [if_neg hfirst]
          exact h
      -- With the part below the gap added, the part above it still starts behind all members.
      have hlowlast : ∀ x ∈ (if first < gapFirst then s.insertBounds first (gapFirst - 1)
          else s).toList, x.last + 1 < gapLast + 1 := by
        intro x hx
        by_cases hfirst : first < gapFirst
        · rw [if_pos hfirst, Segments.insertBounds, Seg.ofBounds?, dif_pos (by omega)] at hx
          rcases SortedSet.mem_insert.1 hx with rfl | hx
          · show gapFirst - 1 + 1 < gapLast + 1
            omega
          · have := hbefore x hx
            omega
        · rw [if_neg hfirst] at hx
          have := hbefore x hx
          omega
      by_cases hhigh : gapLast < last
      · simp only [if_pos hhigh]
        exact hlow.insertBounds hlowlast
      · simp only [if_neg hhigh]
        exact hlow

/-- The gaps between segments that are apart are apart themselves. The induction is on the segments,
and what was found lies before them. -/
theorem isNormal_complementFrom {segs : List Seg} {found : Segments} {start : Nat}
    (hfound : found.IsNormal) (hbefore : ∀ x ∈ found.toList, x.last + 1 < start)
    (hstart : ∀ x ∈ segs, start ≤ x.first) (hapart : Apart segs) :
    (complementFrom found start segs).IsNormal := by
  -- What is found so far ends before the codepoint where the rest starts.
  induction segs generalizing found start with
  | nil =>
    unfold complementFrom
    by_cases hend : start ≤ maxCode
    · rw [if_pos hend]
      exact hfound.insertScalars hbefore
    · rw [if_neg hend]
      exact hfound
  | cons s rest ih =>
    obtain ⟨hs, hrest⟩ := List.pairwise_cons.1 hapart
    have hsstart := hstart s (by simp)
    have hsize := s.first_le_last
    show (complementFrom (if start < s.first then found.insertScalars start (s.first - 1)
      else found) (s.last + 1) rest).IsNormal
    by_cases hlt : start < s.first
    · rw [if_pos hlt]
      refine ih (hfound.insertScalars hbefore) (fun x hx => ?_)
        (fun x hx => Nat.le_of_lt (hs x hx)) hrest
      -- The last codepoint of a member is covered, so it is new or it was there before.
      rcases covers_insertScalars.1 ⟨x, hx, x.first_le_last, Nat.le_refl _⟩ with h | ⟨y, hy, h⟩
      · omega
      · have := hbefore y hy
        have := h.2
        omega
    · rw [if_neg hlt]
      refine ih hfound (fun x hx => ?_) (fun x hx => Nat.le_of_lt (hs x hx)) hrest
      have := hbefore x hx
      omega

/-- The complement of a normalized set is normalized. -/
theorem IsNormal.complement (h : s.IsNormal) : s.complement.IsNormal :=
  isNormal_complementFrom isNormal_empty (fun _ hx => absurd hx List.not_mem_nil)
    (fun _ _ => Nat.zero_le _) h

/-! ### Letter case -/

/-- A set with its case variants covers its codepoints and their images. -/
theorem covers_withCaseVariants :
    s.withCaseVariants.Covers code ↔
      s.Covers code ∨ ∃ other, s.Covers other ∧ code ∈ caseVariants other := by
  unfold withCaseVariants
  rw [covers_normalize, covers_union, covers_ofList]
  -- The images are segments of one codepoint, one for each pair whose first part is covered.
  refine or_congr_right ⟨?_, ?_⟩
  · rintro ⟨x, hx, hcode⟩
    obtain ⟨image, himage, rfl⟩ := List.mem_map.1 hx
    obtain ⟨p, hp, rfl⟩ := List.mem_map.1 himage
    obtain ⟨hp, hcover⟩ := List.mem_filter.1 hp
    have hcode : code = p.2 := Nat.le_antisymm hcode.2 hcode.1
    exact ⟨p.1, covers_iff.1 hcover, List.mem_map.2
      ⟨p, List.mem_filter.2 ⟨hp, by simp⟩, hcode.symm⟩⟩
  · rintro ⟨other, hother, hcode⟩
    obtain ⟨p, hfilter, rfl⟩ := List.mem_map.1 hcode
    obtain ⟨hp, hfirst⟩ := List.mem_filter.1 hfilter
    have hother : s.Covers p.1 := by simpa [of_decide_eq_true hfirst] using hother
    exact ⟨Seg.ofCode p.2, List.mem_map_of_mem (List.mem_map.2
      ⟨p, List.mem_filter.2 ⟨hp, covers_iff.2 hother⟩, rfl⟩), Nat.le_refl _, Nat.le_refl _⟩

/-- A set with its case variants is normalized. -/
theorem isNormal_withCaseVariants (s : Segments) : s.withCaseVariants.IsNormal :=
  isNormal_normalize _

/-- The image of every character is a character. -/
theorem isValidChar_of_mem_casePairs : ∀ p ∈ casePairs, p.2.isValidChar := by
  decide +kernel

/-- The images of characters are characters. -/
theorem Scalars.withCaseVariants (h : s.Scalars) : s.withCaseVariants.Scalars := by
  intro code hcode
  rcases covers_withCaseVariants.1 hcode with hcode | ⟨other, -, hcode⟩
  · exact h code hcode
  · obtain ⟨p, hp, rfl⟩ := List.mem_map.1 hcode
    exact isValidChar_of_mem_casePairs p (List.mem_filter.1 hp).1

end Lexwright.Segments

import Lexwright.Proofs.Segments.Split

/-!
# `Lexwright.Proofs.Segments.Refine`: when cutting a set changes it

`refine` cuts a set along the bounds of another one and gives a flag. The flag says that the other
set has a segment (`refine_flag_iff`). The cut set is another one exactly if it was not `CutAlong`
the other one before (`refine_eq_self_iff`). So the flag is true for every change, and it is true for
many cuts that change nothing.

* `scan_segments`: a scan meets exactly the segments of a set that is cut along the other one.
* `CutAlong.refine`: a set stays cut along another one when it is cut again.
* `round`, `rounds`: one cut along each set of a collection, and that many times over.
* `refine_settles`: the flag and the change of one cut, and of the rounds over a collection.
-/

set_option autoImplicit false

namespace Lexwright.Segments

variable {s t u : Segments} {as bs : List Seg} {sets : List Segments}

/-! ### Sets that are cut already -/

/-- The segments cover what the others cover, and each lies in one of these or outside of them. -/
def CutAlong (as bs : List Seg) : Prop :=
  (∀ code, Covered bs code → Covered as code) ∧
    ∀ a ∈ as, ∀ b ∈ bs, a.last < b.first ∨ b.last < a.first ∨ a.Within b

/-- A segment that ends before the first of the others is not cut by them. -/
theorem CutAlong.of_cons_before {a b : Seg} (h : CutAlong (a :: as) (b :: bs))
    (hbs : Separate (b :: bs)) (hbefore : a.last < b.first) : CutAlong as (b :: bs) := by
  constructor
  · intro code hcode
    obtain ⟨x, hx, hcover⟩ := h.1 code hcode
    rcases List.mem_cons.1 hx with rfl | hx
    · -- All of `b :: bs` lies behind the segment that is left out.
      exact absurd hcode ((hbs.above hbefore).not_covered hcover.2)
    · exact ⟨x, hx, hcover⟩
  · intro x hx
    exact h.2 x (List.mem_cons_of_mem _ hx)

/-- The first segment of the one list lies in the first one of the other, and is left out of both. -/
theorem CutAlong.of_cons_within {a b : Seg} (h : CutAlong (a :: as) (b :: bs))
    (has : Separate (a :: as)) (hbs : Separate (b :: bs)) (hwithin : a.Within b) :
    CutAlong as (b.after a.last ++ bs) := by
  have hfirst : b.first ≤ a.last := Nat.le_trans hwithin.1 a.first_le_last
  have habove := (hbs.after hwithin.2).2
  constructor
  · -- What is left is covered by the first list, and not by `a` any more.
    intro code hcode
    have hbehind : ¬code ≤ a.last := fun hle => habove.not_covered hle hcode
    obtain ⟨x, hx, hcover⟩ := hcode
    obtain ⟨y, hy, hxy⟩ := exists_within_of_after hfirst hx
    have hcovered : Covered (b :: bs) code :=
      ⟨y, hy, Nat.le_trans hxy.1 hcover.1, Nat.le_trans hcover.2 hxy.2⟩
    obtain ⟨z, hz, hzcover⟩ := h.1 code hcovered
    rcases List.mem_cons.1 hz with rfl | hz
    · exact absurd hzcover.2 hbehind
    · exact ⟨z, hz, hzcover⟩
  · intro x hx y hy
    have hax := (List.pairwise_cons.1 has).1 x hx
    rcases List.mem_append.1 hy with hy | hy
    · -- What is left of `b` ends where `b` ends, and `x` begins behind the part that is gone.
      obtain ⟨-, hyfirst, hylast⟩ := Seg.mem_after.1 hy
      have hcases := h.2 x (List.mem_cons_of_mem _ hx) b List.mem_cons_self
      unfold Seg.Within at hcases ⊢
      omega
    · exact h.2 x (List.mem_cons_of_mem _ hx) y (List.mem_cons_of_mem _ hy)

/-- No segment of the second list begins before the first list does. -/
theorem CutAlong.first_le {a b : Seg} (h : CutAlong (a :: as) (b :: bs))
    (has : Separate (a :: as)) : a.first ≤ b.first := by
  refine Nat.le_of_not_lt fun hlt => ?_
  have hcovered : Covered (b :: bs) b.first :=
    ⟨b, List.mem_cons_self, Nat.le_refl _, b.first_le_last⟩
  exact (has.above hlt).not_covered (Nat.le_refl _) (h.1 _ hcovered)

/-- A scan meets the segments of a list that is cut already, and nothing else. -/
theorem scan_segments (h : CutAlong as bs) (has : Separate as) (hbs : Separate bs) :
    (scan as bs).map Prod.snd = as := by
  fun_induction scan as bs with
  | case1 bs =>
    cases bs with
    | nil => rfl
    | cons b bs =>
      exact absurd (h.1 b.first ⟨b, List.mem_cons_self, Nat.le_refl _, b.first_le_last⟩)
        not_covered_nil
  | case2 a as =>
    rw [List.map_map]
    exact List.map_id _
  | case3 a as b bs ha hb hab ih =>
    rw [List.map_cons, ih (h.of_cons_before hbs hab) (List.pairwise_cons.1 has).2 hbs]
  | case4 a as b bs ha hb hab hba ih =>
    have := h.first_le has
    omega
  | case5 a as b bs ha hb hab hba lead shared ihLeft ihRight ihBoth =>
    -- The segments overlap, so the one lies within the other: nothing comes before what they share,
    -- and it is the whole segment.
    have hwithin : a.Within b :=
      ((h.2 a List.mem_cons_self b List.mem_cons_self).resolve_left hab).resolve_left hba
    have hfirst : a.first = b.first := Nat.le_antisymm (h.first_le has) hwithin.1
    have hlead : lead = [] := (dif_neg (by omega)).trans (dif_neg (by omega))
    have hshared : shared = a :=
      Seg.ext (Nat.max_eq_left (by omega)) (Nat.min_eq_left hwithin.2)
    have hrest := h.of_cons_within has hbs hwithin
    have hafter := (hbs.after hwithin.2).1
    rw [hlead, hshared, List.nil_append, List.map_cons, dif_neg (Nat.not_lt.2 hwithin.2)]
    by_cases hlt : a.last < b.last
    · rw [Seg.after_of_lt hlt] at hrest hafter
      rw [dif_pos hlt, ihRight hlt hrest (List.pairwise_cons.1 has).2 hafter]
    · rw [Seg.after_of_le (Nat.le_of_not_lt hlt)] at hrest hafter
      rw [dif_neg hlt, ihBoth hrest (List.pairwise_cons.1 has).2 hafter]

/-! ### One cut -/

/-- Of two members of a separate list, one ends before the other begins. -/
theorem Separate.eq_or_apart (h : Separate as) :
    ∀ a ∈ as, ∀ b ∈ as, a = b ∨ a.last < b.first ∨ b.last < a.first :=
  List.Pairwise.forall_of_forall_of_flip (fun _ _ => Or.inl rfl)
    (h.imp fun hab => Or.inr (Or.inl hab)) (h.imp fun hab => Or.inr (Or.inr hab))

/-- Cutting gives a set that is cut along the other one. -/
theorem cutAlong_refine (hs : Separate s.toList) (ht : Separate t.toList) :
    CutAlong (s.refine t).1.toList t.toList := by
  constructor
  · intro code hcode
    exact (covers_refine hs ht).2 (Or.inr hcode)
  · intro p hp b hb
    obtain ⟨side, hp⟩ := (mem_refine hs ht).1 hp
    have hside : ∀ code, p.Covers code → side.Of (s.Covers code) (t.Covers code) :=
      fun code hcode => of_mem_scan hs ht hp hcode
    obtain ⟨-, hwithin⟩ := (cuts_scan s.toList t.toList).within _ hp
    -- A part that lies in one segment of `t` lies before or behind the others.
    have hone : (∃ x ∈ t.toList, p.Within x) →
        p.last < b.first ∨ b.last < p.first ∨ p.Within b := by
      intro ⟨x, hx, hpx⟩
      have hpfirst := p.first_le_last
      rcases ht.eq_or_apart x hx b hb with rfl | hlt | hlt
      · exact Or.inr (Or.inr hpx)
      · exact Or.inl (Nat.lt_of_le_of_lt hpx.2 hlt)
      · exact Or.inr (Or.inl (Nat.lt_of_lt_of_le hlt hpx.1))
    cases side with
    | common => exact hone (hwithin nofun)
    | left =>
      have hdisjoint : p.Disjoint b := fun code ⟨hp, hcode⟩ => (hside code hp).2 ⟨b, hb, hcode⟩
      exact (Seg.disjoint_iff.1 hdisjoint).imp_right Or.inl
    | right => exact hone (hwithin nofun)

/-- Cutting leaves a set as it is exactly if it is cut already. -/
theorem refine_eq_self_iff (hs : Separate s.toList) (ht : Separate t.toList) :
    (s.refine t).1 = s ↔ CutAlong s.toList t.toList := by
  constructor
  · intro heq
    have := cutAlong_refine hs ht
    rwa [heq] at this
  · intro h
    refine SortedSet.ext fun p => ?_
    have hsegments : p ∈ (scan s.toList t.toList).map Prod.snd ↔ p ∈ s.toList := by
      rw [scan_segments h hs ht]
    rw [← SortedSet.mem_toList, mem_refine hs ht, ← SortedSet.mem_toList, ← hsegments]
    simp

/-- A set stays cut along `u` when it is cut along another one. -/
theorem CutAlong.refine (h : CutAlong s.toList u.toList) (hs : Separate s.toList)
    (ht : Separate t.toList) : CutAlong (s.refine t).1.toList u.toList := by
  constructor
  · intro code hcode
    exact (covers_refine hs ht).2 (Or.inl (h.1 code hcode))
  · intro p hp b hb
    obtain ⟨side, hp⟩ := (mem_refine hs ht).1 hp
    obtain ⟨hwithin, -⟩ := (cuts_scan s.toList t.toList).within _ hp
    have hpart : (∃ x ∈ s.toList, p.Within x) →
        p.last < b.first ∨ b.last < p.first ∨ p.Within b := by
      intro ⟨x, hx, hpx⟩
      have hcases := h.2 x hx b hb
      unfold Seg.Within at hpx hcases ⊢
      omega
    cases side with
    | common => exact hpart (hwithin nofun)
    | left => exact hpart (hwithin nofun)
    | right =>
      -- The part lies outside of `s`, so outside of `u`.
      have hdisjoint : p.Disjoint b := fun code ⟨hcode, hcodeb⟩ =>
        (of_mem_scan hs ht hp hcode).1 (h.1 code ⟨b, hb, hcodeb⟩)
      exact (Seg.disjoint_iff.1 hdisjoint).imp_right Or.inl

/-- A set without segments is the empty set. -/
theorem eq_empty_iff : s = .empty ↔ ∀ x, x ∉ s.toList := by
  constructor
  · intro h x
    rw [h]
    exact SortedSet.not_mem_empty x
  · intro h
    refine SortedSet.ext fun x => ?_
    exact iff_of_false (h x) (SortedSet.not_mem_empty x)

/-- The flag says that the other set has a segment. -/
theorem refine_flag_iff (hs : Separate s.toList) (ht : Separate t.toList) :
    (s.refine t).2 = true ↔ t ≠ .empty := by
  -- The flag is set if some part is not of the left set alone.
  have hflag : (s.refine t).2 = true ↔
      ∃ side p, side ≠ .left ∧ (side, p) ∈ scan s.toList t.toList := by
    unfold refine split
    simp only
    split
    · rename_i hnone
      simp only [Bool.and_eq_true, isEmpty_onSide] at hnone
      refine iff_of_false (by simp) ?_
      intro ⟨side, p, hside, hp⟩
      cases side with
      | common => exact hnone.1 p hp
      | left => exact hside rfl
      | right => exact hnone.2 p hp
    · rename_i hsome
      simp only [Bool.and_eq_true, isEmpty_onSide, not_and_or, not_forall, not_not] at hsome
      refine iff_of_true rfl ?_
      rcases hsome with ⟨p, hp⟩ | ⟨p, hp⟩
      · exact ⟨.common, p, nofun, hp⟩
      · exact ⟨.right, p, nofun, hp⟩
  rw [hflag, ne_eq, eq_empty_iff]
  constructor
  · intro ⟨side, p, hside, hp⟩ hempty
    obtain ⟨x, hx, -⟩ := ((cuts_scan s.toList t.toList).within _ hp).2 hside
    exact hempty x hx
  · intro hmem
    simp only [not_forall, not_not] at hmem
    obtain ⟨x, hx⟩ := hmem
    exact exists_part hs ht ⟨x, hx, Nat.le_refl _, x.first_le_last⟩

/-! ### Rounds over a collection -/

/-- Segments that share no codepoint and do not reach beyond the last one. -/
structure Tiling (s : Segments) : Prop where
  disjoint : s.toList.Pairwise Seg.Disjoint
  bounded : s.Bounded

/-- The segments of a tiling are separate. -/
theorem Tiling.separate (h : s.Tiling) : Separate s.toList := separate_iff_disjoint.2 h.disjoint

/-- A tiling that is cut along another tiling is one. -/
theorem Tiling.refine (hs : s.Tiling) (ht : t.Tiling) : (s.refine t).1.Tiling where
  disjoint := separate_iff_disjoint.1 (hs.separate.refine ht.separate)
  bounded := hs.bounded.refine ht.bounded

/-- Cuts the set along `t`, and notes whether the flag of this cut or an earlier one was true. -/
def cut (r : Segments × Bool) (t : Segments) : Segments × Bool :=
  ((r.1.refine t).1, r.2 || (r.1.refine t).2)

/-- The same in words. -/
def cut? (r : Segments × Bool) (t : Segments) : Option (Segments × Bool) :=
  (r.1.refine? t).map fun next => (next.1, r.2 || next.2)

/-- One cut along each of the sets. -/
def round (sets : List Segments) (s : Segments) : Segments × Bool := sets.foldl cut (s, false)

/-- The same in words. -/
def round? (sets : List Segments) (s : Segments) : Option (Segments × Bool) :=
  sets.foldlM cut? (s, false)

/-- The set after that many rounds. -/
def rounds (sets : List Segments) : Nat → Segments → Segments
  | 0, s => s
  | n + 1, s => rounds sets n (round sets s).1

section Fold

variable {r : Segments × Bool}

/-- A cut leaves a tiling. -/
theorem tiling_cut (h : r.1.Tiling) (ht : t.Tiling) : (cut r t).1.Tiling := h.refine ht

/-- Cuts along several sets leave a tiling. -/
theorem tiling_foldl_cut (h : r.1.Tiling) (hsets : ∀ t ∈ sets, t.Tiling) :
    (sets.foldl cut r).1.Tiling := by
  induction sets generalizing r with
  | nil => exact h
  | cons t sets ih =>
    obtain ⟨ht, hsets⟩ := List.forall_mem_cons.1 hsets
    exact ih (tiling_cut h ht) hsets

/-- Some flag is true exactly if one of the sets has a segment. -/
theorem foldl_cut_flag (h : r.1.Tiling) (hsets : ∀ t ∈ sets, t.Tiling) :
    (sets.foldl cut r).2 = true ↔ r.2 = true ∨ ∃ t ∈ sets, t ≠ .empty := by
  induction sets generalizing r with
  | nil => simp
  | cons t sets ih =>
    obtain ⟨ht, hsets⟩ := List.forall_mem_cons.1 hsets
    have hflag : (cut r t).2 = true ↔ r.2 = true ∨ t ≠ .empty := by
      rw [← refine_flag_iff h.separate ht.separate]
      exact Bool.or_eq_true_iff
    rw [List.foldl_cons, ih (tiling_cut h ht) hsets, hflag, or_assoc]
    simp

/-- A cut keeps the set cut along all that it was cut along before. -/
theorem cutAlong_foldl_cut (h : r.1.Tiling) (hsets : ∀ t ∈ sets, t.Tiling)
    (hu : u ∈ sets ∨ CutAlong r.1.toList u.toList) :
    CutAlong (sets.foldl cut r).1.toList u.toList := by
  induction sets generalizing r with
  | nil => exact hu.resolve_left List.not_mem_nil
  | cons t sets ih =>
    obtain ⟨ht, hsets⟩ := List.forall_mem_cons.1 hsets
    refine ih (tiling_cut h ht) hsets ?_
    rcases hu with hu | hu
    · rcases List.mem_cons.1 hu with rfl | hu
      · exact Or.inr (cutAlong_refine h.separate ht.separate)
      · exact Or.inl hu
    · exact Or.inr (hu.refine h.separate ht.separate)

/-- A set that is cut along all of them stays as it is. -/
theorem foldl_cut_fst (h : r.1.Tiling) (hsets : ∀ t ∈ sets, t.Tiling)
    (hcut : ∀ t ∈ sets, CutAlong r.1.toList t.toList) : (sets.foldl cut r).1 = r.1 := by
  induction sets generalizing r with
  | nil => rfl
  | cons t sets ih =>
    obtain ⟨ht, hsets⟩ := List.forall_mem_cons.1 hsets
    obtain ⟨hcutt, hcut⟩ := List.forall_mem_cons.1 hcut
    have hsame : (cut r t).1 = r.1 := (refine_eq_self_iff h.separate ht.separate).2 hcutt
    rw [List.foldl_cons, ih (hsame ▸ h) hsets (hsame ▸ hcut), hsame]

/-- Words hold all that is computed in a round. -/
theorem foldlM_cut? (h : r.1.Tiling) (hsets : ∀ t ∈ sets, t.Tiling) :
    sets.foldlM cut? r = some (sets.foldl cut r) := by
  induction sets generalizing r with
  | nil => rfl
  | cons t sets ih =>
    obtain ⟨ht, hsets⟩ := List.forall_mem_cons.1 hsets
    have hcut : cut? r t = some (cut r t) := by
      unfold cut?
      rw [refine?_eq h.bounded ht.bounded]
      rfl
    rw [List.foldlM_cons, hcut]
    exact ih (tiling_cut h ht) hsets

end Fold

/-- Any number of rounds leaves a tiling. -/
theorem tiling_rounds (hs : s.Tiling) (hsets : ∀ t ∈ sets, t.Tiling) (n : Nat) :
    (rounds sets n s).Tiling := by
  induction n generalizing s with
  | zero => exact hs
  | succ n ih => exact ih (tiling_foldl_cut hs hsets)

/-- After the first round a set stays as it is. -/
theorem rounds_succ (hs : s.Tiling) (hsets : ∀ t ∈ sets, t.Tiling) (n : Nat) :
    rounds sets (n + 1) s = (round sets s).1 := by
  induction n generalizing s with
  | zero => rfl
  | succ n ih =>
    have hround : (round sets s).1.Tiling := tiling_foldl_cut hs hsets
    show rounds sets (n + 1) (round sets s).1 = _
    rw [ih hround]
    exact foldl_cut_fst hround hsets fun t ht => cutAlong_foldl_cut hs hsets (Or.inl ht)

/-- The flag of one cut says whether the other set has a segment, and not whether the cut changes
anything: it does unless the set is cut along the other one already. A change gives a true flag, so
a cut with a false one changes nothing. In rounds over a collection the set does not change after the
first round, while every round has a true flag unless all sets of the collection are empty. So rounds
until no flag is true come to an end only for a collection of empty sets. -/
theorem refine_settles (hs : s.Tiling) (ht : t.Tiling) (hsets : ∀ t ∈ sets, t.Tiling) :
    s.refine? t = some (s.refine t) ∧ ((s.refine t).2 = true ↔ t ≠ .empty) ∧
      ((s.refine t).1 = s ↔ CutAlong s.toList t.toList) ∧
      ((s.refine t).1 ≠ s → (s.refine t).2 = true) ∧
      (∀ n, round? sets (rounds sets n s) = some (round sets (rounds sets n s)) ∧
        rounds sets (n + 1) s = (round sets s).1 ∧
        ((round sets (rounds sets n s)).2 = true ↔ ∃ t ∈ sets, t ≠ .empty)) ∧
      ((∃ n, (round sets (rounds sets n s)).2 = false) ↔ ∀ t ∈ sets, t = .empty) := by
  have hflag (n : Nat) : (round sets (rounds sets n s)).2 = true ↔ ∃ t ∈ sets, t ≠ .empty := by
    refine (foldl_cut_flag (tiling_rounds hs hsets n) hsets).trans ?_
    simp
  refine ⟨refine?_eq hs.bounded ht.bounded, refine_flag_iff hs.separate ht.separate,
    refine_eq_self_iff hs.separate ht.separate, fun hne => ?_, fun n => ⟨?_, ?_, hflag n⟩, ?_⟩
  · -- A set is cut along one without segments.
    rw [refine_flag_iff hs.separate ht.separate]
    intro hempty
    refine hne ((refine_eq_self_iff hs.separate ht.separate).2 ⟨fun code hcode => ?_, ?_⟩)
    · exact absurd (hempty ▸ hcode) not_covers_empty
    · rw [hempty]
      exact fun a _ b hb => absurd hb (SortedSet.not_mem_empty b)
  · exact foldlM_cut? (tiling_rounds hs hsets n) hsets
  · exact rounds_succ hs hsets n
  · simp only [← Bool.not_eq_true, hflag]
    simp

/-- The tiles of the sample are separate and bounded. -/
theorem tiling_tiles : tiles.Tiling where
  disjoint := by decide
  bounded := by
    unfold Bounded
    decide

/-- The planks of the sample are separate and bounded. -/
theorem tiling_planks : planks.Tiling where
  disjoint := by decide
  bounded := by
    unfold Bounded
    decide

/-- `tiles` change when they are cut along `planks`, and do not change again. All flags are true. -/
theorem refine_settles_tiles :
    tiles.Tiling ∧ planks.Tiling ∧ (tiles.refine planks).1 ≠ tiles ∧
      (tiles.refine planks).2 = true ∧
      ∀ n, rounds [planks] (n + 1) tiles = (round [planks] tiles).1 ∧
        (round [planks] (rounds [planks] n tiles)).2 = true := by
  have hsets : ∀ t ∈ [planks], t.Tiling := by simp [tiling_planks]
  obtain ⟨-, hflag, hself, -, hrounds, -⟩ := refine_settles tiling_tiles tiling_planks hsets
  have hne : planks ≠ .empty := by decide
  refine ⟨tiling_tiles, tiling_planks, ?_, hflag.2 hne, fun n => ?_⟩
  · -- The first plank begins in the first tile.
    rw [ne_eq, hself]
    intro h
    have := h.2 ⟨0, 10, by decide⟩ (by decide) ⟨5, 30, by decide⟩ (by decide)
    revert this
    unfold Seg.Within
    decide
  · obtain ⟨-, hsame, hflag⟩ := hrounds n
    exact ⟨hsame, hflag.2 ⟨planks, by simp, hne⟩⟩

/-- The lowercase letters from a to z. -/
def letters : Segments := .singleton ⟨0x61, 0x7a, by decide⟩

/-- A set that is cut along itself does not change. The flag is true all the same, in every round. -/
theorem refine_self_flag :
    letters.Tiling ∧ letters.refine? letters = some (letters, true) ∧
      ∀ n, rounds [letters] n letters = letters ∧
        round? [letters] (rounds [letters] n letters) = some (letters, true) := by
  have htiling : letters.Tiling := by
    refine ⟨by decide, ?_⟩
    unfold Bounded
    decide
  have hself : CutAlong letters.toList letters.toList :=
    ⟨fun _ => id, fun a ha b hb => by
      rw [List.mem_singleton.1 ha, List.mem_singleton.1 hb]
      exact Or.inr (Or.inr (.refl _))⟩
  have hcut : letters.refine letters = (letters, true) :=
    Prod.ext ((refine_eq_self_iff htiling.separate htiling.separate).2 hself)
      ((refine_flag_iff htiling.separate htiling.separate).2 (by decide))
  have hcut? : letters.refine? letters = some (letters, true) := by
    rw [refine?_eq htiling.bounded htiling.bounded, hcut]
  have hround : round [letters] letters = (letters, true) := by
    simp [round, cut, hcut]
  have hrounds (n : Nat) : rounds [letters] n letters = letters := by
    induction n with
    | zero => rfl
    | succ n ih => rw [rounds, hround, ih]
  refine ⟨htiling, hcut?, fun n => ⟨hrounds n, ?_⟩⟩
  rw [hrounds n]
  simp [round?, cut?, hcut?]

end Lexwright.Segments

import Lexwright.Proofs.Segments.Words
import Mathlib.Logic.Basic

/-!
# `Lexwright.Proofs.Segments.Split`: the parts of two sets are exact

* `Split.Exact`: what the parts of two sets must be.
* `separate_iff_disjoint`: in a set, segments that share no codepoint stand one behind the other.
* `scan_swap`: with the sets exchanged, a scan meets the same parts, and the sides are exchanged.
* `split_exact`: words of 32 bits hold all that is computed on the way to the parts, and the parts
  are exact.
-/

set_option autoImplicit false

namespace Lexwright

namespace Seg

variable {p q : Seg}

/-- No codepoint lies in both ranges. -/
def Disjoint (p q : Seg) : Prop := ∀ code, ¬(p.Covers code ∧ q.Covers code)

/-- Segments have no codepoint in common exactly if one ends before the other begins. -/
theorem disjoint_iff : p.Disjoint q ↔ p.last < q.first ∨ q.last < p.first := by
  have := p.first_le_last
  have := q.first_le_last
  constructor
  · intro h
    refine Classical.byContradiction fun hmeet => ?_
    -- The later one of the two first codepoints lies in both.
    by_cases hle : p.first ≤ q.first
    · exact h q.first ⟨⟨hle, by omega⟩, Nat.le_refl _, by omega⟩
    · exact h p.first ⟨⟨Nat.le_refl _, by omega⟩, by omega, by omega⟩
  · rintro h code ⟨hp, hq⟩
    have := hp.1
    have := hp.2
    have := hq.1
    have := hq.2
    omega

instance (p q : Seg) : Decidable (p.Disjoint q) := decidable_of_iff _ disjoint_iff.symm

end Seg

/-- The side seen from the other set. -/
def Side.swap : Side → Side
  | common => common
  | left => right
  | right => left

/-- Exchanging the sides twice changes nothing. -/
theorem Side.swap_swap (side : Side) : side.swap.swap = side := by
  cases side with
  | common => rfl
  | left => rfl
  | right => rfl

/-- The parts cover what is in both sets and what is in one of them only. No two of them overlap, and
each lies in one segment of each set that it belongs to. -/
structure Split.Exact (s t : Segments) (parts : Split) : Prop where
  covers_common : ∀ code, parts.common.Covers code ↔ s.Covers code ∧ t.Covers code
  covers_left : ∀ code, parts.left.Covers code ↔ s.Covers code ∧ ¬t.Covers code
  covers_right : ∀ code, parts.right.Covers code ↔ ¬s.Covers code ∧ t.Covers code
  disjoint :
    (parts.common.toList ++ (parts.left.toList ++ parts.right.toList)).Pairwise Seg.Disjoint
  common_within : ∀ p ∈ parts.common,
    (∃ x ∈ s, p.Within x) ∧ ∃ x ∈ t, p.Within x
  left_within : ∀ p ∈ parts.left, ∃ x ∈ s, p.Within x
  right_within : ∀ p ∈ parts.right, ∃ x ∈ t, p.Within x

namespace Segments

variable {s t : Segments} {p q : Seg} {side side' : Side} {code : Nat}
  {parts : List (Side × Seg)}

/-- A set lists segments that share no codepoint one behind the other. -/
theorem separate_iff_disjoint : Separate s.toList ↔ s.toList.Pairwise Seg.Disjoint := by
  constructor
  · exact List.Pairwise.imp fun hpq => Seg.disjoint_iff.2 (Or.inl hpq)
  · intro h
    refine (h.and s.increasing).imp fun {p q} hpq => ?_
    have := p.first_le_last
    have := q.first_le_last
    rcases Seg.disjoint_iff.1 hpq.1 with hlt | hlt
    · exact hlt
    · have := Seg.lt_iff.1 hpq.2
      omega

/-! ### The sets exchanged -/

/-- Exchanged sets give the same parts on exchanged sides. The induction is that of the scan, whose
cases come in pairs. -/
theorem scan_swap (as bs : List Seg) : scan bs as = (scan as bs).map fun p => (p.1.swap, p.2) := by
  fun_induction scan as bs with
  | case1 bs =>
    rw [scan_nil, List.map_map]
    rfl
  | case2 a as =>
    rw [scan, List.map_map]
    rfl
  | case3 a as b bs ha hb hab ih =>
    rw [scan, dif_neg (by omega), dif_pos hab, ih]
    rfl
  | case4 a as b bs ha hb hab hba ih =>
    rw [scan, dif_pos hba, ih]
    rfl
  | case5 a as b bs ha hb hab hba lead shared ihLeft ihRight ihBoth =>
    have hsame : (⟨max b.first a.first, min b.last a.last, by omega⟩ : Seg) = shared :=
      Seg.ext (Nat.max_comm ..) (Nat.min_comm ..)
    rw [scan, dif_neg hba, dif_neg hab, List.map_append, List.map_cons, hsame]
    -- The part before the shared one, and what is left behind it, are on the other side.
    refine congrArg₂ (· ++ (Side.common, shared) :: ·) ?_ ?_
    · by_cases hlt : a.first < b.first
      · rw [dif_neg (Nat.not_lt_of_lt hlt), dif_pos hlt, show lead = _ from dif_pos hlt]
        rfl
      · rw [show lead = _ from dif_neg hlt]
        by_cases hlt' : b.first < a.first
        · rw [dif_pos hlt', dif_pos hlt']
          rfl
        · rw [dif_neg hlt', dif_neg hlt, dif_neg hlt']
          rfl
    · by_cases hlt : b.last < a.last
      · rw [dif_neg (Nat.not_lt_of_lt hlt), dif_pos hlt, dif_pos hlt, ihLeft hlt]
      · by_cases hlt' : a.last < b.last
        · rw [dif_pos hlt', dif_neg hlt, dif_pos hlt', ihRight hlt']
        · rw [dif_neg hlt', dif_neg hlt, dif_neg hlt, dif_neg hlt', ihBoth]

/-- After an exchange, the parts of one side are those of the other. -/
theorem onSide_swap :
    onSide side (parts.map fun p => (p.1.swap, p.2)) = onSide side.swap parts := by
  refine SortedSet.ext fun p => ?_
  rw [← SortedSet.mem_toList, ← SortedSet.mem_toList, mem_onSide, mem_onSide, List.mem_map]
  constructor
  · rintro ⟨⟨side', q⟩, hq, heq⟩
    cases heq
    rwa [Side.swap_swap]
  · intro hp
    exact ⟨_, hp, by rw [Side.swap_swap]⟩

/-- With the sets exchanged the parts of the two sides are exchanged. -/
theorem split_swap (s t : Segments) : t.split s = (s.split t).swap := by
  unfold split Split.swap
  simp only [scan_swap s.toList t.toList, onSide_swap]
  rfl

/-! ### The parts -/

/-- The set of one side covers what the parts on this side cover. -/
theorem covers_onSide : (onSide side parts).Covers code ↔ CoveredOn side parts code := by
  constructor
  · rintro ⟨p, hp, hcode⟩
    exact ⟨_, mem_onSide.1 hp, rfl, hcode⟩
  · rintro ⟨⟨_, p⟩, hp, rfl, hcode⟩
    exact ⟨p, mem_onSide.2 hp, hcode⟩

/-- Parts that follow each other share no codepoint, be it on one side or on two. -/
theorem disjoint_of_mem_onSide (h : parts.Pairwise fun p q => p.2.last < q.2.first)
    (hp : p ∈ (onSide side parts).toList) (hq : q ∈ (onSide side' parts).toList)
    (hne : side ≠ side' ∨ p ≠ q) : p.Disjoint q := by
  rcases eq_or_apart h _ (mem_onSide.1 hp) _ (mem_onSide.1 hq) with heq | hlt
  · cases heq
    exact hne.elim (absurd rfl) (absurd rfl)
  · exact Seg.disjoint_iff.2 hlt

/-- Parts that follow one another are disjoint on each side. -/
theorem pairwise_onSide (h : parts.Pairwise fun p q => p.2.last < q.2.first) :
    (onSide side parts).toList.Pairwise Seg.Disjoint := by
  refine List.Pairwise.imp_of_mem (fun {p q} hp hq hlt => ?_) (onSide side parts).increasing
  refine disjoint_of_mem_onSide h hp hq (Or.inr ?_)
  rintro rfl
  rw [TotalOrder.irrefl] at hlt
  cases hlt

/-- The split of two sets of separate segments is exact. -/
theorem exact_split (hs : Separate s.toList) (ht : Separate t.toList) :
    (s.split t).Exact s t := by
  have hcuts := cuts_scan s.toList t.toList
  have hpairwise := hcuts.pairwise hs ht
  exact {
    covers_common := fun _ => covers_onSide.trans (hcuts.coveredOn_iff hs ht)
    covers_left := fun _ => covers_onSide.trans (hcuts.coveredOn_iff hs ht)
    covers_right := fun _ => covers_onSide.trans (hcuts.coveredOn_iff hs ht)
    disjoint := by
      refine List.pairwise_append.2 ⟨pairwise_onSide hpairwise, List.pairwise_append.2
        ⟨pairwise_onSide hpairwise, pairwise_onSide hpairwise, fun p hp q hq => ?_⟩,
        fun p hp q hq => ?_⟩
      · exact disjoint_of_mem_onSide hpairwise hp hq (Or.inl nofun)
      · rcases List.mem_append.1 hq with hq | hq
        · exact disjoint_of_mem_onSide hpairwise hp hq (Or.inl nofun)
        · exact disjoint_of_mem_onSide hpairwise hp hq (Or.inl nofun)
    common_within := fun _ hp =>
      have hwithin := hcuts.within _ (mem_onSide.1 hp)
      ⟨hwithin.1 nofun, hwithin.2 nofun⟩
    left_within := fun _ hp => (hcuts.within _ (mem_onSide.1 hp)).1 nofun
    right_within := fun _ hp => (hcuts.within _ (mem_onSide.1 hp)).2 nofun }

/-- Cutting two sets of disjoint segments never leaves the words of 32 bits, whichever set comes
first. The parts are exact, and with the sets exchanged they are the same, on exchanged sides. -/
theorem split_exact (hs : s.toList.Pairwise Seg.Disjoint) (ht : t.toList.Pairwise Seg.Disjoint)
    (hsBounded : s.Bounded) (htBounded : t.Bounded) :
    s.split? t = some (s.split t) ∧ t.split? s = some (s.split t).swap ∧
      t.split s = (s.split t).swap ∧ (s.split t).Exact s t := by
  refine ⟨split?_eq hsBounded htBounded, ?_, split_swap s t,
    exact_split (separate_iff_disjoint.2 hs) (separate_iff_disjoint.2 ht)⟩
  rw [split?_eq htBounded hsBounded, split_swap s t]

/-- Segments that touch, and the last two codepoints. -/
def tiles : Segments where
  toList := [⟨0, 10, by decide⟩, ⟨11, 20, by decide⟩, ⟨30, 40, by decide⟩,
    ⟨0x10fffe, 0x10ffff, by decide⟩]
  increasing := by decide

/-- Each of these segments overlaps several of `tiles`. -/
def planks : Segments where
  toList := [⟨5, 30, by decide⟩, ⟨40, 0x10ffff, by decide⟩]
  increasing := by decide

/-- The sets of the example have codepoints of all three kinds, next to each other. -/
theorem split_exact_tiles :
    tiles.toList.Pairwise Seg.Disjoint ∧ planks.toList.Pairwise Seg.Disjoint ∧ tiles.Bounded ∧
      planks.Bounded ∧ tiles.split? planks = some (tiles.split planks) ∧
      planks.split tiles = (tiles.split planks).swap ∧ (tiles.split planks).common.Covers 30 ∧
      (tiles.split planks).left.Covers 31 ∧ (tiles.split planks).right.Covers 29 := by
  have htiles : tiles.toList.Pairwise Seg.Disjoint := by decide
  have hplanks : planks.toList.Pairwise Seg.Disjoint := by decide
  have hbounded : tiles.Bounded ∧ planks.Bounded := by
    unfold Bounded
    decide
  obtain ⟨hwords, -, hswap, hexact⟩ := split_exact htiles hplanks hbounded.1 hbounded.2
  refine ⟨htiles, hplanks, hbounded.1, hbounded.2, hwords, hswap, ?_, ?_, ?_⟩
  · exact (hexact.covers_common 30).2 ⟨covers_iff.1 (by decide), covers_iff.1 (by decide)⟩
  · exact (hexact.covers_left 31).2 ⟨covers_iff.1 (by decide),
      fun h => absurd (covers_iff.2 h) (by decide)⟩
  · exact (hexact.covers_right 29).2 ⟨fun h => absurd (covers_iff.2 h) (by decide),
      covers_iff.1 (by decide)⟩

end Segments

end Lexwright

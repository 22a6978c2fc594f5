import Lexwright.Proofs.Segments.Cover
import Lexwright.Segments.Split

/-!
# `Lexwright.Proofs.Segments.Partition`: the parts of two sets

A scan of two sets takes one part after another off their fronts. `Cuts` says which parts these may
be, and what is proved of the parts follows from it part by part.

* `cuts_scan`: a scan takes its parts off in this way.
* `Cuts.coveredOn_iff`: the parts of a side cover the codepoints of that side.
* `Cuts.within`: a part lies in one segment of each set that it belongs to.
* `Cuts.pairwise`: the parts are in order, and no two of them overlap.
* `covers_refine`, `Separate.refine`, `homogeneous_refine`: what cutting a set does to it.
-/

set_option autoImplicit false

namespace Lexwright

namespace Seg

variable {s t u : Seg} {code n : Nat}

/-- The range lies in the other one. -/
def Within (s t : Seg) : Prop := t.first ≤ s.first ∧ s.last ≤ t.last

/-- A segment lies within itself. -/
theorem Within.refl (s : Seg) : s.Within s := ⟨Nat.le_refl _, Nat.le_refl _⟩

/-- A segment lies within all that its surroundings lie within. -/
theorem Within.trans (h : s.Within t) (h' : t.Within u) : s.Within u :=
  ⟨Nat.le_trans h'.1 h.1, Nat.le_trans h.2 h'.2⟩

/-- The codepoints of the range behind a codepoint, if there are any. -/
def after (s : Seg) (code : Nat) : List Seg :=
  if h : code < s.last then [⟨code + 1, s.last, h⟩] else []

/-- A segment that goes on behind a codepoint leaves the rest of itself. -/
theorem after_of_lt (h : code < s.last) : s.after code = [⟨code + 1, s.last, h⟩] := dif_pos h

/-- A segment that ends at a codepoint or before it leaves nothing. -/
theorem after_of_le (h : s.last ≤ code) : s.after code = [] := dif_neg (Nat.not_lt.2 h)

/-- What is left of a segment begins right behind the codepoint and ends where the segment ends. -/
theorem mem_after : t ∈ s.after code ↔ code < s.last ∧ t.first = code + 1 ∧ t.last = s.last := by
  unfold after
  split
  · rename_i h
    obtain ⟨first, last, _⟩ := t
    simp [h]
  · rename_i h
    simp [h]

end Seg

/-- What the side of a part says of its codepoints, given whether they lie in either set. -/
def Side.Of : Side → Prop → Prop → Prop
  | common, inLeft, inRight => inLeft ∧ inRight
  | left, inLeft, inRight => inLeft ∧ ¬inRight
  | right, inLeft, inRight => ¬inLeft ∧ inRight

/-- A part adds to its side what was in neither set. -/
theorem Side.of_or {side side' : Side} {P inLeft inRight : Prop} (hleft : P → ¬inLeft)
    (hright : P → ¬inRight) :
    side.Of (side' ≠ .right ∧ P ∨ inLeft) (side' ≠ .left ∧ P ∨ inRight) ↔
      side' = side ∧ P ∨ side.Of inLeft inRight := by
  by_cases h : P
  · cases side <;> cases side' <;> simp [Of, h, hleft h, hright h]
  · simp [h]

namespace Segments

variable {s t : Segments} {code n : Nat} {as bs : List Seg} {a p : Seg} {side : Side}
  {parts : List (Side × Seg)}

/-! ### The front of a list of segments -/

/-- One of the segments covers the codepoint. -/
def Covered (segs : List Seg) (code : Nat) : Prop := ∃ x ∈ segs, x.Covers code

/-- No two segments overlap, and they are in order. They may touch. -/
abbrev Separate (segs : List Seg) : Prop := segs.Pairwise fun a b => a.last < b.first

/-- Every segment begins behind the codepoint. -/
def Above (code : Nat) (segs : List Seg) : Prop := ∀ x ∈ segs, code < x.first

/-- Segments above a number cover nothing up to it. -/
theorem Above.not_covered (h : Above n as) (hcode : code ≤ n) : ¬Covered as code := by
  intro ⟨x, hx, hlow, _⟩
  have := h x hx
  omega

/-- What a segment covers is covered by its front and by what lies behind that. -/
theorem covered_cons_after (hfirst : p.first = a.first) (hlast : p.last ≤ a.last) :
    Covered (a :: as) code ↔ p.Covers code ∨ Covered (a.after p.last ++ as) code := by
  have hp := p.first_le_last
  constructor
  · intro ⟨x, hx, hcode⟩
    rcases List.mem_cons.1 hx with rfl | hx
    · by_cases hle : code ≤ p.last
      · exact Or.inl ⟨hfirst ▸ hcode.1, hle⟩
      · have hlt : p.last < code := Nat.lt_of_not_le hle
        refine Or.inr ⟨⟨p.last + 1, x.last, Nat.lt_of_lt_of_le hlt hcode.2⟩, ?_, hlt, hcode.2⟩
        rw [Seg.after_of_lt (Nat.lt_of_lt_of_le hlt hcode.2)]
        exact List.mem_cons_self
    · exact Or.inr ⟨x, List.mem_append_right _ hx, hcode⟩
  · rintro (⟨hlow, hhigh⟩ | ⟨x, hx, hcode⟩)
    · exact ⟨a, List.mem_cons_self, hfirst ▸ hlow, Nat.le_trans hhigh hlast⟩
    · rcases List.mem_append.1 hx with hx | hx
      · obtain ⟨hlt, hxfirst, hxlast⟩ := Seg.mem_after.1 hx
        obtain ⟨hlow, hhigh⟩ := hcode
        exact ⟨a, List.mem_cons_self, by omega, by omega⟩
      · exact ⟨x, List.mem_cons_of_mem _ hx, hcode⟩

/-- What is left of separate segments behind a codepoint of the first one is separate again. -/
theorem Separate.after (h : Separate (a :: as)) (hn : n ≤ a.last) :
    Separate (a.after n ++ as) ∧ Above n (a.after n ++ as) := by
  obtain ⟨hhead, htail⟩ := List.pairwise_cons.1 h
  have habove : Above n as := fun x hx => Nat.lt_of_le_of_lt hn (hhead x hx)
  by_cases hlt : n < a.last
  · rw [Seg.after_of_lt hlt]
    refine ⟨List.pairwise_cons.2 ⟨hhead, htail⟩, fun x hx => ?_⟩
    rcases List.mem_cons.1 hx with rfl | hx
    · exact Nat.lt_succ_self n
    · exact habove x hx
  · rw [Seg.after_of_le (Nat.le_of_not_lt hlt)]
    exact ⟨htail, habove⟩

/-- Separate segments lie behind every codepoint before the first one. -/
theorem Separate.above (h : Separate (a :: as)) (hn : n < a.first) : Above n (a :: as) := by
  intro x hx
  rcases List.mem_cons.1 hx with rfl | hx
  · exact hn
  · have := (List.pairwise_cons.1 h).1 x hx
    have := a.first_le_last
    omega

/-- What is left behind a codepoint lies in the segments that there were. -/
theorem exists_within_of_after (hn : a.first ≤ n) {x : Seg} (hx : x ∈ a.after n ++ as) :
    ∃ y ∈ a :: as, x.Within y := by
  rcases List.mem_append.1 hx with hx | hx
  · obtain ⟨hlt, hfirst, hlast⟩ := Seg.mem_after.1 hx
    exact ⟨a, List.mem_cons_self, by omega, by omega⟩
  · exact ⟨x, List.mem_cons_of_mem _ hx, .refl x⟩

/-- What is left of the first segment lies above the place of the cut, like the others. -/
theorem Above.after {least : Nat} (h : Above least (a :: as)) (hn : a.first ≤ n) :
    Above least (a.after n ++ as) := by
  intro x hx
  obtain ⟨y, hy, hfirst, _⟩ := exists_within_of_after hn hx
  exact Nat.lt_of_lt_of_le (h y hy) hfirst

/-! ### The parts of two lists of segments -/

/-- The parts are taken off the fronts of the two lists. -/
inductive Cuts : List Seg → List Seg → List (Side × Seg) → Prop where
  | rightOnly (bs : List Seg) : Cuts [] bs (bs.map (.right, ·))
  | leftOnly (as : List Seg) : Cuts as [] (as.map (.left, ·))
  | left {a b p : Seg} {as bs : List Seg} {parts : List (Side × Seg)}
      (hfirst : p.first = a.first) (hlast : p.last ≤ a.last) (hbefore : p.last < b.first)
      (rest : Cuts (a.after p.last ++ as) (b :: bs) parts) :
      Cuts (a :: as) (b :: bs) ((.left, p) :: parts)
  | right {a b p : Seg} {as bs : List Seg} {parts : List (Side × Seg)}
      (hfirst : p.first = b.first) (hlast : p.last ≤ b.last) (hbefore : p.last < a.first)
      (rest : Cuts (a :: as) (b.after p.last ++ bs) parts) :
      Cuts (a :: as) (b :: bs) ((.right, p) :: parts)
  | common {a b p : Seg} {as bs : List Seg} {parts : List (Side × Seg)}
      (hleft : p.first = a.first) (hright : p.first = b.first)
      (hlast : p.last ≤ a.last) (hlast' : p.last ≤ b.last)
      (rest : Cuts (a.after p.last ++ as) (b.after p.last ++ bs) parts) :
      Cuts (a :: as) (b :: bs) ((.common, p) :: parts)

/-- Two segments that begin together share what the shorter one covers. -/
theorem Cuts.shared {a b p : Seg} (heq : a.first = b.first) (hfirst : p.first = a.first)
    (hlast : p.last = min a.last b.last)
    (rest : Cuts (a.after p.last ++ as) (b.after p.last ++ bs) parts) :
    Cuts (a :: as) (b :: bs) ((.common, p) :: parts) :=
  .common hfirst (hfirst.trans heq) (hlast ▸ Nat.min_le_left _ _) (hlast ▸ Nat.min_le_right _ _)
    rest

/-- A scan takes its parts off in this way. -/
theorem cuts_scan (as bs : List Seg) : Cuts as bs (scan as bs) := by
  fun_induction scan as bs with
  | case1 bs => exact .rightOnly bs
  | case2 a as => exact .leftOnly (a :: as)
  | case3 a as b bs _ _ hab ih =>
    refine .left rfl (Nat.le_refl _) hab ?_
    rwa [Seg.after_of_le (Nat.le_refl _)]
  | case4 a as b bs _ _ hab hba ih =>
    refine .right rfl (Nat.le_refl _) hba ?_
    rwa [Seg.after_of_le (Nat.le_refl _)]
  | case5 a as b bs ha hb hab hba lead shared ihLeft ihRight ihBoth =>
    have hlast : shared.last = min a.last b.last := rfl
    have hfirst : shared.first = max a.first b.first := rfl
    -- What is left behind the shared part is scanned on.
    have hrest : Cuts (a.after shared.last ++ as) (b.after shared.last ++ bs)
        (if h : b.last < a.last then scan (⟨b.last + 1, a.last, h⟩ :: as) bs
          else if h : a.last < b.last then scan as (⟨a.last + 1, b.last, h⟩ :: bs)
          else scan as bs) := by
      rw [hlast]
      by_cases hlt : b.last < a.last
      · rw [dif_pos hlt, Nat.min_eq_right (Nat.le_of_lt hlt), Seg.after_of_lt hlt,
          Seg.after_of_le (Nat.le_refl _)]
        exact ihLeft hlt
      · rw [dif_neg hlt, Nat.min_eq_left (Nat.le_of_not_lt hlt), Seg.after_of_le (Nat.le_refl _)]
        by_cases hlt' : a.last < b.last
        · rw [dif_pos hlt', Seg.after_of_lt hlt']
          exact ihRight hlt'
        · rw [dif_neg hlt', Seg.after_of_le (Nat.le_of_not_lt hlt')]
          exact ihBoth
    -- The part before the shared one is taken off first, and what it leaves begins there.
    by_cases hleft : a.first < b.first
    · have hlead : lead = [(.left, ⟨a.first, b.first - 1, by omega⟩)] := dif_pos hleft
      have hcut : b.first - 1 < a.last := by omega
      have hsame : b.first - 1 + 1 = b.first := by omega
      rw [hlead]
      refine .left rfl (Nat.le_of_lt hcut) (Nat.sub_one_lt_of_lt hleft) ?_
      rw [Seg.after_of_lt hcut]
      refine .shared hsame ?_ hlast hrest
      rw [hfirst]
      exact (Nat.max_eq_right (Nat.le_of_lt hleft)).trans hsame.symm
    · by_cases hright : b.first < a.first
      · have hlead : lead = [(.right, ⟨b.first, a.first - 1, by omega⟩)] :=
          (dif_neg hleft).trans (dif_pos hright)
        have hcut : a.first - 1 < b.last := by omega
        have hsame : a.first - 1 + 1 = a.first := by omega
        rw [hlead]
        refine .right rfl (Nat.le_of_lt hcut) (Nat.sub_one_lt_of_lt hright) ?_
        rw [Seg.after_of_lt hcut]
        refine .shared hsame.symm ?_ hlast hrest
        rw [hfirst]
        exact Nat.max_eq_left (Nat.le_of_lt hright)
      · have hlead : lead = [] := (dif_neg hleft).trans (dif_neg hright)
        rw [hlead]
        exact .shared (by omega) (by omega) hlast hrest

/-- The parts lie behind a codepoint if the segments do. -/
theorem Cuts.above (h : Cuts as bs parts) (has : Above n as) (hbs : Above n bs) :
    ∀ q ∈ parts, n < q.2.first := by
  induction h with
  | rightOnly bs => exact List.forall_mem_map.2 hbs
  | leftOnly as => exact List.forall_mem_map.2 has
  | @left a b p as bs parts hfirst hlast hbefore _ ih =>
    exact List.forall_mem_cons.2 ⟨hfirst ▸ has a List.mem_cons_self,
      ih (has.after (hfirst ▸ p.first_le_last)) hbs⟩
  | @right a b p as bs parts hfirst hlast hbefore _ ih =>
    exact List.forall_mem_cons.2 ⟨hfirst ▸ hbs b List.mem_cons_self,
      ih has (hbs.after (hfirst ▸ p.first_le_last))⟩
  | @common a b p as bs parts hleft hright hlast hlast' _ ih =>
    exact List.forall_mem_cons.2 ⟨hleft ▸ has a List.mem_cons_self,
      ih (has.after (hleft ▸ p.first_le_last)) (hbs.after (hright ▸ p.first_le_last))⟩

/-- The parts are in order, and no two of them overlap. -/
theorem Cuts.pairwise (h : Cuts as bs parts) (has : Separate as) (hbs : Separate bs) :
    parts.Pairwise fun p q => p.2.last < q.2.first := by
  induction h with
  | rightOnly bs => exact List.pairwise_map.2 hbs
  | leftOnly as => exact List.pairwise_map.2 has
  | left hfirst hlast hbefore rest ih =>
    obtain ⟨hseparate, habove⟩ := has.after hlast
    exact List.pairwise_cons.2 ⟨rest.above habove (hbs.above hbefore), ih hseparate hbs⟩
  | right hfirst hlast hbefore rest ih =>
    obtain ⟨hseparate, habove⟩ := hbs.after hlast
    exact List.pairwise_cons.2 ⟨rest.above (has.above hbefore) habove, ih has hseparate⟩
  | common hleft hright hlast hlast' rest ih =>
    obtain ⟨hseparate, habove⟩ := has.after hlast
    obtain ⟨hseparate', habove'⟩ := hbs.after hlast'
    exact List.pairwise_cons.2 ⟨rest.above habove habove', ih hseparate hseparate'⟩

/-- Of two parts in order, one ends before the other begins. -/
theorem eq_or_apart (h : parts.Pairwise fun p q => p.2.last < q.2.first) :
    ∀ x ∈ parts, ∀ y ∈ parts, x = y ∨ x.2.last < y.2.first ∨ y.2.last < x.2.first :=
  List.Pairwise.forall_of_forall_of_flip (fun _ _ => Or.inl rfl)
    (h.imp fun hxy => Or.inr (Or.inl hxy)) (h.imp fun hxy => Or.inr (Or.inr hxy))

/-- One of the parts on the side covers the codepoint. -/
def CoveredOn (side : Side) (parts : List (Side × Seg)) (code : Nat) : Prop :=
  ∃ q ∈ parts, q.1 = side ∧ q.2.Covers code

/-- A part covers its codepoints on its own side. -/
theorem coveredOn_cons {side' : Side} : CoveredOn side ((side', p) :: parts) code ↔
    side' = side ∧ p.Covers code ∨ CoveredOn side parts code := by
  simp [CoveredOn]

/-- Parts that all lie on one side cover nothing on the others. -/
theorem coveredOn_map {side' : Side} :
    CoveredOn side (as.map (side', ·)) code ↔ side' = side ∧ Covered as code := by
  simp only [CoveredOn, List.mem_map, Covered]
  constructor
  · rintro ⟨_, ⟨x, hx, rfl⟩, hside, hcode⟩
    exact ⟨hside, x, hx, hcode⟩
  · rintro ⟨hside, x, hx, hcode⟩
    exact ⟨_, ⟨x, hx, rfl⟩, hside, hcode⟩

/-- No segment covers nothing. -/
theorem not_covered_nil : ¬Covered [] code := fun ⟨_, hx, _⟩ => List.not_mem_nil hx

/-- The parts on a side cover the codepoints of that side. -/
theorem Cuts.coveredOn_iff (h : Cuts as bs parts) (has : Separate as) (hbs : Separate bs) :
    CoveredOn side parts code ↔ side.Of (Covered as code) (Covered bs code) := by
  induction h with
  | rightOnly bs =>
    rw [coveredOn_map]
    cases side <;> simp [Side.Of, not_covered_nil]
  | leftOnly as =>
    rw [coveredOn_map]
    cases side <;> simp [Side.Of, not_covered_nil]
  -- What a part covers lies before all that is left on either side.
  | left hfirst hlast hbefore rest ih =>
    obtain ⟨hseparate, habove⟩ := has.after hlast
    rw [coveredOn_cons, ih hseparate hbs, covered_cons_after hfirst hlast,
      ← Side.of_or (fun hcode => habove.not_covered hcode.2)
        fun hcode => (hbs.above hbefore).not_covered hcode.2]
    simp
  | right hfirst hlast hbefore rest ih =>
    obtain ⟨hseparate, habove⟩ := hbs.after hlast
    rw [coveredOn_cons, ih has hseparate, covered_cons_after hfirst hlast,
      ← Side.of_or (fun hcode => (has.above hbefore).not_covered hcode.2)
        fun hcode => habove.not_covered hcode.2]
    simp
  | common hleft hright hlast hlast' rest ih =>
    obtain ⟨hseparate, habove⟩ := has.after hlast
    obtain ⟨hseparate', habove'⟩ := hbs.after hlast'
    rw [coveredOn_cons, ih hseparate hseparate', covered_cons_after hleft hlast,
      covered_cons_after hright hlast', ← Side.of_or (fun hcode => habove.not_covered hcode.2)
        fun hcode => habove'.not_covered hcode.2]
    simp

/-- What lies within the rest of a segment lies within the segment. -/
theorem exists_within_after (hn : a.first ≤ n) (h : ∃ x ∈ a.after n ++ as, p.Within x) :
    ∃ x ∈ a :: as, p.Within x := by
  obtain ⟨x, hx, hp⟩ := h
  obtain ⟨y, hy, hwithin⟩ := exists_within_of_after hn hx
  exact ⟨y, hy, hp.trans hwithin⟩

/-- A part lies in one segment of each list that it belongs to. -/
theorem Cuts.within (h : Cuts as bs parts) : ∀ q ∈ parts,
    (q.1 ≠ .right → ∃ x ∈ as, q.2.Within x) ∧ (q.1 ≠ .left → ∃ x ∈ bs, q.2.Within x) := by
  -- The parts come from the scan, so the induction is on its steps.
  induction h with
  | rightOnly bs =>
    exact List.forall_mem_map.2 fun x hx => ⟨fun h => absurd rfl h, fun _ => ⟨x, hx, .refl x⟩⟩
  | leftOnly as =>
    exact List.forall_mem_map.2 fun x hx => ⟨fun _ => ⟨x, hx, .refl x⟩, fun h => absurd rfl h⟩
  | @left a b p _ _ _ hfirst hlast _ _ ih =>
    have hn : a.first ≤ p.last := hfirst ▸ p.first_le_last
    refine List.forall_mem_cons.2 ⟨⟨fun _ => ?_, fun h => absurd rfl h⟩, fun q hq => ?_⟩
    · exact ⟨a, List.mem_cons_self, Nat.le_of_eq hfirst.symm, hlast⟩
    · exact ⟨fun h => exists_within_after hn ((ih q hq).1 h), (ih q hq).2⟩
  | @right a b p _ _ _ hfirst hlast _ _ ih =>
    have hn : b.first ≤ p.last := hfirst ▸ p.first_le_last
    refine List.forall_mem_cons.2 ⟨⟨fun h => absurd rfl h, fun _ => ?_⟩, fun q hq => ?_⟩
    · exact ⟨b, List.mem_cons_self, Nat.le_of_eq hfirst.symm, hlast⟩
    · exact ⟨(ih q hq).1, fun h => exists_within_after hn ((ih q hq).2 h)⟩
  | @common a b p _ _ _ hleft hright hlast hlast' _ ih =>
    have hn : a.first ≤ p.last := hleft ▸ p.first_le_last
    have hn' : b.first ≤ p.last := hright ▸ p.first_le_last
    refine List.forall_mem_cons.2 ⟨⟨fun _ => ?_, fun _ => ?_⟩, fun q hq => ?_⟩
    · exact ⟨a, List.mem_cons_self, Nat.le_of_eq hleft.symm, hlast⟩
    · exact ⟨b, List.mem_cons_self, Nat.le_of_eq hright.symm, hlast'⟩
    · exact ⟨fun h => exists_within_after hn ((ih q hq).1 h),
        fun h => exists_within_after hn' ((ih q hq).2 h)⟩

/-! ### A set cut along the bounds of another -/

/-- The parts on each side as a set. -/
theorem mem_onSide : p ∈ (onSide side parts).toList ↔ (side, p) ∈ parts := by
  unfold onSide
  rw [SortedSet.mem_toList, SortedSet.mem_ofList, List.mem_filterMap]
  constructor
  · rintro ⟨⟨side', x⟩, hx, hp⟩
    simp only at hp
    split at hp
    · rename_i hside
      cases hp
      exact hside ▸ hx
    · cases hp
  · intro hp
    exact ⟨_, hp, if_pos rfl⟩

/-- With nothing on the right side, all that is left is on the left side. -/
theorem scan_nil (as : List Seg) : scan as [] = as.map (.left, ·) := by
  cases as with
  | nil => simp [scan]
  | cons a as => simp [scan]

/-- What a part covers lies on the side of the part. -/
theorem of_mem_scan (hs : Separate s.toList) (ht : Separate t.toList)
    (hp : (side, p) ∈ scan s.toList t.toList) (hcode : p.Covers code) :
    side.Of (s.Covers code) (t.Covers code) :=
  ((cuts_scan s.toList t.toList).coveredOn_iff hs ht).1 ⟨_, hp, rfl, hcode⟩

/-- What `t` covers is covered by a part that it shares, or by one of its own. -/
theorem exists_part (hs : Separate s.toList) (ht : Separate t.toList) (hcode : t.Covers code) :
    ∃ side p, side ≠ .left ∧ (side, p) ∈ scan s.toList t.toList := by
  have hcuts := cuts_scan s.toList t.toList
  by_cases hin : s.Covers code
  · have hside : Side.common.Of (s.Covers code) (t.Covers code) := ⟨hin, hcode⟩
    obtain ⟨⟨_, p⟩, hp, rfl, -⟩ := (hcuts.coveredOn_iff hs ht).2 hside
    exact ⟨.common, p, nofun, hp⟩
  · have hside : Side.right.Of (s.Covers code) (t.Covers code) := ⟨hin, hcode⟩
    obtain ⟨⟨_, p⟩, hp, rfl, -⟩ := (hcuts.coveredOn_iff hs ht).2 hside
    exact ⟨.right, p, nofun, hp⟩

/-- A set that is cut along the bounds of another consists of the parts of both. -/
theorem mem_refine (hs : Separate s.toList) (ht : Separate t.toList) :
    p ∈ (s.refine t).1.toList ↔ ∃ side, (side, p) ∈ scan s.toList t.toList := by
  have hsides : (∃ side, (side, p) ∈ scan s.toList t.toList) ↔
      p ∈ ((s.split t).left.union ((s.split t).common.union (s.split t).right)).toList := by
    rw [SortedSet.mem_toList, SortedSet.mem_union, SortedSet.mem_union, ← SortedSet.mem_toList,
      ← SortedSet.mem_toList, ← SortedSet.mem_toList]
    unfold split
    simp only [mem_onSide]
    constructor
    · rintro ⟨side, hp⟩
      cases side with
      | common => exact Or.inr (Or.inl hp)
      | left => exact Or.inl hp
      | right => exact Or.inr (Or.inr hp)
    · rintro (hp | hp | hp)
      · exact ⟨_, hp⟩
      · exact ⟨_, hp⟩
      · exact ⟨_, hp⟩
  unfold refine
  simp only
  by_cases hnone : ((s.split t).common.isEmpty && (s.split t).right.isEmpty) = true
  · rw [if_pos hnone]
    simp only [Bool.and_eq_true, SortedSet.isEmpty, List.isEmpty_iff] at hnone
    obtain ⟨hcommon, hright⟩ := hnone
    -- Every segment of `t` would give a part on one of these sides, so `t` is empty.
    have hnil : t.toList = [] := by
      refine List.eq_nil_iff_forall_not_mem.2 fun x hx => ?_
      obtain ⟨side, q, hside, hq⟩ := exists_part hs ht ⟨x, hx, Nat.le_refl _, x.first_le_last⟩
      have hmem := mem_onSide.2 hq
      cases side with
      | common => exact List.not_mem_nil (hcommon ▸ hmem)
      | left => exact hside rfl
      | right => exact List.not_mem_nil (hright ▸ hmem)
    rw [hnil, scan_nil]
    simp
  · rw [if_neg hnone]
    exact hsides.symm

/-- Cutting adds what the other set covers. -/
theorem covers_refine (hs : Separate s.toList) (ht : Separate t.toList) :
    (s.refine t).1.Covers code ↔ s.Covers code ∨ t.Covers code := by
  have hcuts := cuts_scan s.toList t.toList
  constructor
  · rintro ⟨p, hp, hcode⟩
    obtain ⟨side, hp⟩ := (mem_refine hs ht).1 hp
    have hside := of_mem_scan hs ht hp hcode
    cases side with
    | common => exact Or.inl hside.1
    | left => exact Or.inl hside.1
    | right => exact Or.inr hside.2
  · intro h
    have hside : ∃ side : Side, side.Of (s.Covers code) (t.Covers code) := by
      by_cases hleft : s.Covers code
      · by_cases hright : t.Covers code
        · exact ⟨.common, hleft, hright⟩
        · exact ⟨.left, hleft, hright⟩
      · exact ⟨.right, hleft, h.resolve_left hleft⟩
    obtain ⟨side, hside⟩ := hside
    obtain ⟨⟨_, p⟩, hp, rfl, hcode⟩ := (hcuts.coveredOn_iff hs ht).2 hside
    exact ⟨p, (mem_refine hs ht).2 ⟨_, hp⟩, hcode⟩

/-- Of two members of a set, one ends before the other begins. -/
theorem separate_of_mem
    (h : ∀ a ∈ s.toList, ∀ b ∈ s.toList, a = b ∨ a.last < b.first ∨ b.last < a.first) :
    Separate s.toList := by
  -- The set lists the lower one first.
  refine List.Pairwise.imp_of_mem (fun {a b} ha hb hab => ?_) s.increasing
  have hlt := Seg.lt_iff.1 hab
  have := a.first_le_last
  have := b.first_le_last
  rcases h a ha b hb with rfl | hbefore | hbehind
  · omega
  · exact hbefore
  · omega

/-- A set keeps its segments apart when it is cut. -/
theorem Separate.refine (hs : Separate s.toList) (ht : Separate t.toList) :
    Separate (s.refine t).1.toList := by
  have hpairwise := (cuts_scan s.toList t.toList).pairwise hs ht
  refine separate_of_mem fun p hp q hq => ?_
  obtain ⟨side, hp⟩ := (mem_refine hs ht).1 hp
  obtain ⟨side', hq⟩ := (mem_refine hs ht).1 hq
  exact (eq_or_apart hpairwise _ hp _ hq).imp_left (congrArg Prod.snd)

/-- A segment all of whose codepoints have a property, or none. -/
def Homogeneous (p : Seg) (P : Nat → Prop) : Prop :=
  (∀ code, p.Covers code → P code) ∨ ∀ code, p.Covers code → ¬P code

/-- What does not tell the codepoints of a segment apart does not tell those of a part apart. -/
theorem Homogeneous.within {P : Nat → Prop} (h : Homogeneous a P) (hp : p.Within a) :
    Homogeneous p P := by
  have hcovers : ∀ code, p.Covers code → a.Covers code := fun code hcode =>
    ⟨Nat.le_trans hp.1 hcode.1, Nat.le_trans hcode.2 hp.2⟩
  rcases h with h | h
  · exact Or.inl fun code hcode => h code (hcovers code hcode)
  · exact Or.inr fun code hcode => h code (hcovers code hcode)

/-- Cutting a set along the bounds of another tells the codepoints of the other from the rest. What
was told apart before stays so. -/
theorem homogeneous_refine (hs : Separate s.toList) (ht : Separate t.toList)
    (hp : p ∈ (s.refine t).1.toList) : Homogeneous p t.Covers ∧
      ∀ P : Nat → Prop, (∀ code, P code → s.Covers code) → (∀ x ∈ s.toList, Homogeneous x P) →
        Homogeneous p P := by
  obtain ⟨side, hp⟩ := (mem_refine hs ht).1 hp
  have hside : ∀ code, p.Covers code → side.Of (s.Covers code) (t.Covers code) :=
    fun code hcode => of_mem_scan hs ht hp hcode
  obtain ⟨hwithin, -⟩ := (cuts_scan s.toList t.toList).within _ hp
  cases side with
  | common =>
    refine ⟨Or.inl fun code hcode => (hside code hcode).2, fun P _ hparts => ?_⟩
    obtain ⟨x, hx, hpx⟩ := hwithin nofun
    exact (hparts x hx).within hpx
  | left =>
    refine ⟨Or.inr fun code hcode => (hside code hcode).2, fun P _ hparts => ?_⟩
    obtain ⟨x, hx, hpx⟩ := hwithin nofun
    exact (hparts x hx).within hpx
  | right =>
    exact ⟨Or.inl fun code hcode => (hside code hcode).2, fun P hP _ =>
      Or.inr fun code hcode hcodeP => (hside code hcode).1 (hP code hcodeP)⟩

/-! ### Many sets -/

/-- The segments of `parts` are apart, cover what the sets cover, and lie in each of the sets or
outside of it. -/
structure Partitions (sets : List Segments) (parts : Segments) : Prop where
  separate : Separate parts.toList
  covers_iff : ∀ code, parts.Covers code ↔ ∃ s ∈ sets, s.Covers code
  homogeneous : ∀ p ∈ parts.toList, ∀ s ∈ sets, Homogeneous p s.Covers

/-- No set is partitioned by no part. -/
theorem partitions_empty : Partitions [] SortedSet.empty where
  separate := .nil
  covers_iff _ := iff_of_false not_covers_empty fun ⟨_, hs, _⟩ => List.not_mem_nil hs
  homogeneous _ hp := absurd hp (SortedSet.not_mem_empty _)

/-- Cutting along the bounds of one more set. -/
theorem Partitions.refine {sets : List Segments} {parts : Segments} (h : Partitions sets parts)
    (ht : Separate t.toList) : Partitions (sets ++ [t]) (parts.refine t).1 where
  separate := h.separate.refine ht
  covers_iff code := by
    rw [covers_refine h.separate ht, h.covers_iff]
    simp [or_and_right, exists_or]
  homogeneous p hp s hs := by
    obtain ⟨hnew, hold⟩ := homogeneous_refine h.separate ht hp
    rcases List.mem_append.1 hs with hs | hs
    · exact hold s.Covers (fun code hcode => (h.covers_iff code).2 ⟨s, hs, hcode⟩)
        fun x hx => h.homogeneous x hx s hs
    · obtain rfl := List.mem_singleton.1 hs
      exact hnew

/-- Cutting along the bounds of all the sets, by induction on them. -/
theorem partitions_foldl {sets later : List Segments} {parts : Segments}
    (h : Partitions sets parts) (hlater : ∀ s ∈ later, Separate s.toList) :
    Partitions (sets ++ later) (later.foldl (fun parts s => (parts.refine s).1) parts) := by
  induction later generalizing sets parts with
  | nil =>
    rw [List.append_nil]
    exact h
  | cons s later ih =>
    obtain ⟨hs, hlater⟩ := List.forall_mem_cons.1 hlater
    have hrest := ih (h.refine hs) hlater
    rw [List.append_assoc] at hrest
    exact hrest

/-- The segments of a normalized set are separate. -/
theorem IsNormal.separate (h : s.IsNormal) : Separate s.toList :=
  h.imp fun hab => Nat.lt_of_succ_lt hab

end Segments

end Lexwright

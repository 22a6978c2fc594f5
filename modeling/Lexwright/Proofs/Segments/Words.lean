import Lexwright.Proofs.Segments.Partition

/-!
# `Lexwright.Proofs.Segments.Words`: cutting sets in words of 32 bits

The functions of this module cut sets as `split` and `refine` do, but they give nothing as soon as
a word does not hold the codepoint behind or before another one. They also go another way. Two
segments at a time are cut along each other's bounds, and what is left of the longer one is taken
back out of the parts, where `scan` computes it.

* `Split.ofBounds?`: the parts of two ranges.
* `Segments.splitFrom?`, `Segments.split?`: the parts of two sets, one pair of segments at a time.
* `Segments.refine?`: a set cut along the bounds of another.
* `Segments.split?_eq`, `Segments.refine?_eq`, `Segments.foldlM_refine?`: up to the last codepoint
  words hold all that is computed, and the parts are those of `split` and `refine`.
-/

set_option autoImplicit false

namespace Lexwright

open Text

namespace Word

/-- The number behind `n`, if a word of 32 bits holds it. -/
def succ? (n : Nat) : Option Nat := if n + 1 < UInt32.size then some (n + 1) else none

/-- The number before `n`, if there is one. -/
def pred? (n : Nat) : Option Nat := if 0 < n then some (n - 1) else none

/-- A codepoint has a successor that fits the word. -/
theorem succ?_eq {n : Nat} (h : n ≤ maxCode) : succ? n = some (n + 1) := by
  have hsize : maxCode + 1 < UInt32.size := by decide
  exact if_pos (Nat.lt_of_le_of_lt (Nat.succ_le_succ h) hsize)

/-- A number above zero has a predecessor. -/
theorem pred?_eq {n : Nat} (h : 0 < n) : pred? n = some (n - 1) := if_pos h

end Word

/-! ### Two ranges -/

namespace Split

/-- The parts of the range from `a` to `b` and the range from `c` to `d`, of which the first starts
before the second, or starts with it and does not end after it. -/
def ofOrderedBounds? (a b c d : Nat) : Option Split :=
  if a < c then
    if b < c then some ⟨.empty, Segments.ofBounds [(a, b)], Segments.ofBounds [(c, d)]⟩
    else do
      let before ← Word.pred? c
      if b ≤ d then
        let behind ← Word.succ? b
        return ⟨Segments.ofBounds [(c, b)], Segments.ofBounds [(a, before)],
          Segments.ofBounds [(behind, d)]⟩
      else
        let behind ← Word.succ? d
        return ⟨Segments.ofBounds [(c, d)], Segments.ofBounds [(a, before), (behind, b)], .empty⟩
  else do
    let behind ← Word.succ? b
    return ⟨Segments.ofBounds [(a, b)], .empty, Segments.ofBounds [(behind, d)]⟩

/-- The parts of the range from `a` to `b` and the range from `c` to `d`. -/
def ofBounds? (a b c d : Nat) : Option Split :=
  if a < c ∨ a = c ∧ b ≤ d then ofOrderedBounds? a b c d
  else (ofOrderedBounds? c d a b).map swap

/-- On codepoints, no sum and no difference of the cases overflows. -/
theorem ofOrderedBounds?_eq {a b c d : Nat} (hb : b ≤ maxCode) (hd : d ≤ maxCode) :
    ofOrderedBounds? a b c d = some (ofOrderedBounds a b c d) := by
  unfold ofOrderedBounds? ofOrderedBounds
  by_cases hac : a < c
  · rw [if_pos hac, if_pos hac]
    by_cases hbc : b < c
    · rw [if_pos hbc, if_pos hbc]
    · rw [if_neg hbc, if_neg hbc, Word.pred?_eq (Nat.zero_lt_of_lt hac)]
      by_cases hbd : b ≤ d
      · rw [if_pos hbd, Word.succ?_eq hb]
        simp only [Option.bind_eq_bind, Option.bind_some, if_pos hbd]
        rfl
      · rw [if_neg hbd, Word.succ?_eq hd]
        simp only [Option.bind_eq_bind, Option.bind_some, if_neg hbd]
        rfl
  · rw [if_neg hac, if_neg hac, Word.succ?_eq hb]
    rfl

/-- The parts on each side. -/
def ofParts (parts : List (Side × Seg)) : Split where
  common := Segments.onSide .common parts
  left := Segments.onSide .left parts
  right := Segments.onSide .right parts

/-- Two segments are cut into the parts of a scan. -/
theorem ofBounds?_eq {s t : Seg} (hs : s.last ≤ maxCode) (ht : t.last ≤ maxCode) :
    ofBounds? s.first s.last t.first t.last = some (ofParts (Segments.scan [s] [t])) := by
  have hparts : ofBounds s.first s.last t.first t.last = ofParts (Segments.scan [s] [t]) :=
    ofBounds_eq_split s t
  rw [← hparts]
  unfold ofBounds? ofBounds
  rw [ofOrderedBounds?_eq hs ht, ofOrderedBounds?_eq ht hs]
  split
  · rfl
  · rfl

/-- Nothing was found yet. -/
def empty : Split := ⟨.empty, .empty, .empty⟩

/-- The parts found before, and some more. -/
def union (found parts : Split) : Split where
  common := found.common.union parts.common
  left := found.left.union parts.left
  right := found.right.union parts.right

end Split

/-! ### Two sets -/

namespace Segments

/-- The set without its last segment. -/
def dropLast (s : Segments) : Segments where
  toList := s.toList.dropLast
  increasing := s.increasing.sublist (List.dropLast_sublist _)

/-- Taking the first segment off leaves the others. -/
theorem length_next (segs : List Seg) :
    segs.head?.toList.length + segs.tail.length = segs.length := by
  cases segs with
  | nil => rfl
  | cons a rest => exact Nat.add_comm 1 rest.length

/-- One segment at most is being looked at. -/
theorem length_toList_le (a? : Option Seg) : a?.toList.length ≤ 1 := by
  cases a? with
  | none => exact Nat.zero_le 1
  | some a => exact Nat.le_refl 1

/-- The parts of two sets, from the segments at hand on either side and those behind them. -/
def splitFrom? (found : Split) (a? : Option Seg) (as : List Seg) (b? : Option Seg)
    (bs : List Seg) : Option Split :=
  match a?, b? with
  | none, none => some found
  | some a, none => some (found.union (.ofParts ((a :: as).map (.left, ·))))
  | none, some b => some (found.union (.ofParts ((b :: bs).map (.right, ·))))
  | some a, some b => do
    let parts ← Split.ofBounds? a.first a.last b.first b.last
    if parts.common.isEmpty then
      if a.last < b.first then
        splitFrom? (found.union (.ofParts [(.left, a)])) as.head? as.tail (some b) bs
      else splitFrom? (found.union (.ofParts [(.right, b)])) (some a) as bs.head? bs.tail
    -- what is left of the longer segment is the last part on its side, and meets the next one
    else if b.last < a.last then
      splitFrom? (found.union { parts with left := parts.left.dropLast }) parts.left.toList.getLast?
        as bs.head? bs.tail
    else if a.last < b.last then
      splitFrom? (found.union { parts with right := parts.right.dropLast }) as.head? as.tail
        parts.right.toList.getLast? bs
    else splitFrom? (found.union parts) as.head? as.tail bs.head? bs.tail
termination_by a?.toList.length + as.length + (b?.toList.length + bs.length)
decreasing_by
  -- one side at least goes on to its next segment
  all_goals
    have := length_next as
    have := length_next bs
    simp only [Option.toList_some, List.length_singleton]
  · omega
  · omega
  · have := length_toList_le parts.left.toList.getLast?
    omega
  · have := length_toList_le parts.right.toList.getLast?
    omega
  · omega

/-- The parts of two sets. -/
def split? (s t : Segments) : Option Split :=
  splitFrom? .empty s.toList.head? s.toList.tail t.toList.head? t.toList.tail

/-- Cuts `s` along the bounds of `t` and adds the rest of `t`. -/
def refine? (s t : Segments) : Option (Segments × Bool) := do
  let parts ← s.split? t
  if parts.common.isEmpty && parts.right.isEmpty then return (s, false)
  else return (parts.left.union (parts.common.union parts.right), true)

end Segments

/-! ### The parts of a scan as sets -/

namespace Segments

variable {side : Side} {parts more : List (Side × Seg)}

/-- A side is empty exactly if no part lies on it. -/
theorem isEmpty_onSide : (onSide side parts).isEmpty = true ↔ ∀ p, (side, p) ∉ parts := by
  unfold SortedSet.isEmpty
  rw [List.isEmpty_iff, List.eq_nil_iff_forall_not_mem]
  exact forall_congr' fun p => not_congr mem_onSide

/-- A side with a part is not empty. -/
theorem not_isEmpty_onSide (h : ∃ p, (side, p) ∈ parts) : ¬(onSide side parts).isEmpty = true :=
  fun hnone => h.elim (isEmpty_onSide.1 hnone)

/-- The parts of a side are collected from both lists. -/
theorem onSide_append :
    onSide side (parts ++ more) = (onSide side parts).union (onSide side more) := by
  refine SortedSet.ext fun p => ?_
  rw [SortedSet.mem_union, ← SortedSet.mem_toList, ← SortedSet.mem_toList, ← SortedSet.mem_toList,
    mem_onSide, mem_onSide, mem_onSide, List.mem_append]

/-- Parts in order stand in the set of their side as they are listed. -/
theorem toList_onSide (h : parts.Pairwise fun p q => p.2.last < q.2.first) :
    (onSide side parts).toList = parts.filterMap fun p => if p.1 = side then some p.2 else none := by
  refine SortedSet.toList_ofList (List.pairwise_filterMap.2 (h.imp fun {p q} hpq => ?_))
  intro x hx y hy
  obtain ⟨-, hx⟩ := Option.ite_none_right_eq_some.1 hx
  obtain ⟨-, hy⟩ := Option.ite_none_right_eq_some.1 hy
  cases hx
  cases hy
  exact Seg.lt_iff.2 (Or.inl (Nat.lt_of_le_of_lt p.2.first_le_last hpq))

/-- A part on another side adds nothing. -/
theorem onSide_append_of_ne {p : Seg} (side side' : Side) (h : side' ≠ side) :
    onSide side (parts ++ [(side', p)]) = onSide side parts := by
  refine SortedSet.ext fun x => ?_
  rw [← SortedSet.mem_toList, ← SortedSet.mem_toList, mem_onSide, mem_onSide, List.mem_append]
  refine or_iff_left fun hx => h ?_
  exact (congrArg Prod.fst (List.mem_singleton.1 hx)).symm

/-- The last part is the last one on its side, and without it the parts before it are left. -/
theorem popLast_onSide {p : Seg}
    (h : (parts ++ [(side, p)]).Pairwise fun p q => p.2.last < q.2.first) :
    (onSide side (parts ++ [(side, p)])).toList.getLast? = some p ∧
      (onSide side (parts ++ [(side, p)])).dropLast = onSide side parts := by
  have hlist : (onSide side (parts ++ [(side, p)])).toList = (onSide side parts).toList ++ [p] := by
    rw [toList_onSide h, toList_onSide (List.pairwise_append.1 h).1, List.filterMap_append]
    simp
  refine ⟨?_, SortedSet.ext fun x => ?_⟩
  · rw [hlist, List.getLast?_concat]
  · show x ∈ (onSide side (parts ++ [(side, p)])).toList.dropLast ↔ _
    rw [hlist, List.dropLast_concat, SortedSet.mem_toList]

end Segments

namespace Split

variable {x : Split} {parts more : List (Side × Seg)}

/-- Parts are collected on their sides from both lists. -/
theorem ofParts_append : ofParts (parts ++ more) = (ofParts parts).union (ofParts more) := by
  unfold ofParts union
  simp only [Segments.onSide_append]

/-- Parts may be added in two steps. -/
theorem union_ofParts_append :
    x.union (ofParts (parts ++ more)) = (x.union (ofParts parts)).union (ofParts more) := by
  have hassoc (s t u : Segments) : s.union (t.union u) = (s.union t).union u :=
    SortedSet.ext fun p => by simp only [SortedSet.mem_union, or_assoc]
  rw [ofParts_append]
  unfold union
  simp only [hassoc]

/-- Parts may be added one after another. -/
theorem union_ofParts_cons (q : Side × Seg) :
    x.union (ofParts (q :: parts)) = (x.union (ofParts [q])).union (ofParts parts) :=
  @union_ofParts_append x [q] parts

/-- No part adds nothing. -/
theorem union_ofParts_nil : x.union (ofParts []) = x := by
  have hnone (s : Segments) (side : Side) : s.union (Segments.onSide side []) = s :=
    SortedSet.ext fun p => by
      rw [SortedSet.mem_union, ← SortedSet.mem_toList (s := Segments.onSide side []),
        Segments.mem_onSide, or_iff_left List.not_mem_nil]
  unfold union ofParts
  simp only [hnone]

/-- Parts that are added to nothing are the parts. -/
theorem empty_union_ofParts : empty.union (ofParts parts) = ofParts parts := by
  have hempty (s : Segments) : SortedSet.empty.union s = s :=
    SortedSet.ext fun p => by rw [SortedSet.mem_union, or_iff_right (SortedSet.not_mem_empty p)]
  unfold union empty
  simp only [hempty]

end Split

/-! ### Words hold all that a scan computes -/

namespace Segments

variable {s t : Segments} {a b : Seg} {as bs : List Seg} {found : Split}

/-- The parts of two segments follow one another. -/
theorem pairwise_scan_singleton (a b : Seg) :
    (scan [a] [b]).Pairwise fun p q => p.2.last < q.2.first :=
  (cuts_scan [a] [b]).pairwise (List.pairwise_singleton ..) (List.pairwise_singleton ..)

/-- A segment on the left side alone is one part. -/
theorem scan_singleton_nil (a : Seg) : scan [a] [] = [(.left, a)] := by
  rw [scan]
  rfl

/-- A segment on the right side alone is one part. -/
theorem scan_nil_singleton (b : Seg) : scan [] [b] = [(.right, b)] := by
  rw [scan]
  rfl

/-- Segments that overlap give the same parts first, whatever comes behind them. -/
theorem exists_front (hab : ¬a.last < b.first) (hba : ¬b.last < a.first) :
    ∃ front, (∃ p, (Side.common, p) ∈ front) ∧ ∀ as bs, scan (a :: as) (b :: bs) = front ++
      (if h : b.last < a.last then scan (⟨b.last + 1, a.last, h⟩ :: as) bs
      else if h : a.last < b.last then scan as (⟨a.last + 1, b.last, h⟩ :: bs)
      else scan as bs) := by
  have hshared : max a.first b.first ≤ min a.last b.last := by
    have := a.first_le_last
    have := b.first_le_last
    omega
  let lead : List (Side × Seg) :=
    if h : a.first < b.first then [(.left, ⟨a.first, b.first - 1, by omega⟩)]
    else if h : b.first < a.first then [(.right, ⟨b.first, a.first - 1, by omega⟩)]
    else []
  let shared : Seg := ⟨max a.first b.first, min a.last b.last, hshared⟩
  refine ⟨lead ++ [(.common, shared)], ⟨shared, by simp⟩, fun as bs => ?_⟩
  rw [scan, dif_neg hab, dif_neg hba, List.append_assoc]
  rfl

/-- Segments that do not overlap have no common part, and the first of them is done. -/
theorem splitFrom?_of_before (ha : a.last ≤ maxCode) (hb : b.last ≤ maxCode)
    (hab : a.last < b.first) : splitFrom? found (some a) as (some b) bs =
      splitFrom? (found.union (.ofParts [(.left, a)])) as.head? as.tail (some b) bs := by
  have hscan : scan [a] [b] = [(.left, a), (.right, b)] := by
    rw [scan, dif_pos hab, scan_nil_singleton]
  have hcommon : (Split.ofParts (scan [a] [b])).common.isEmpty = true := by
    rw [hscan]
    exact isEmpty_onSide.2 (by simp)
  rw [splitFrom?, Split.ofBounds?_eq ha hb]
  simp only [Option.bind_eq_bind, Option.bind_some]
  rw [if_pos hcommon, if_pos hab]

/-- A segment of the left set that lies behind that of the right set leaves the latter to the right
side. -/
theorem splitFrom?_of_behind (ha : a.last ≤ maxCode) (hb : b.last ≤ maxCode)
    (hab : ¬a.last < b.first) (hba : b.last < a.first) :
    splitFrom? found (some a) as (some b) bs =
      splitFrom? (found.union (.ofParts [(.right, b)])) (some a) as bs.head? bs.tail := by
  have hscan : scan [a] [b] = [(.right, b), (.left, a)] := by
    rw [scan, dif_neg hab, dif_pos hba, scan_singleton_nil]
  have hcommon : (Split.ofParts (scan [a] [b])).common.isEmpty = true := by
    rw [hscan]
    exact isEmpty_onSide.2 (by simp)
  rw [splitFrom?, Split.ofBounds?_eq ha hb]
  simp only [Option.bind_eq_bind, Option.bind_some]
  rw [if_pos hcommon, if_neg hab]

section Overlap

variable {front : List (Side × Seg)} {p : Seg}

/-- Of two segments that overlap, the left one reaches further. -/
theorem splitFrom?_of_left (ha : a.last ≤ maxCode) (hb : b.last ≤ maxCode)
    (hfront : ∃ q, (Side.common, q) ∈ front) (hscan : scan [a] [b] = front ++ [(.left, p)])
    (hlt : b.last < a.last) : splitFrom? found (some a) as (some b) bs =
      splitFrom? (found.union (.ofParts front)) (some p) as bs.head? bs.tail := by
  have hcommon := not_isEmpty_onSide hfront
  obtain ⟨hlast, hrest⟩ := popLast_onSide (hscan ▸ pairwise_scan_singleton a b)
  rw [splitFrom?, Split.ofBounds?_eq ha hb, hscan]
  simp only [Option.bind_eq_bind, Option.bind_some, Split.ofParts]
  rw [hlast, hrest, onSide_append_of_ne .common .left nofun,
    onSide_append_of_ne .right .left nofun, if_neg hcommon, if_pos hlt]

/-- The right one reaches further. -/
theorem splitFrom?_of_right (ha : a.last ≤ maxCode) (hb : b.last ≤ maxCode)
    (hfront : ∃ q, (Side.common, q) ∈ front) (hscan : scan [a] [b] = front ++ [(.right, p)])
    (hlt : a.last < b.last) : splitFrom? found (some a) as (some b) bs =
      splitFrom? (found.union (.ofParts front)) as.head? as.tail (some p) bs := by
  have hcommon := not_isEmpty_onSide hfront
  obtain ⟨hlast, hrest⟩ := popLast_onSide (hscan ▸ pairwise_scan_singleton a b)
  rw [splitFrom?, Split.ofBounds?_eq ha hb, hscan]
  simp only [Option.bind_eq_bind, Option.bind_some, Split.ofParts]
  rw [hlast, hrest, onSide_append_of_ne .common .right nofun,
    onSide_append_of_ne .left .right nofun, if_neg hcommon, if_neg (Nat.not_lt_of_lt hlt),
    if_pos hlt]

/-- They end together. -/
theorem splitFrom?_of_both (ha : a.last ≤ maxCode) (hb : b.last ≤ maxCode)
    (hfront : ∃ q, (Side.common, q) ∈ scan [a] [b]) (hba : ¬b.last < a.last)
    (hab : ¬a.last < b.last) : splitFrom? found (some a) as (some b) bs =
      splitFrom? (found.union (.ofParts (scan [a] [b]))) as.head? as.tail bs.head? bs.tail := by
  have hcommon : ¬(Split.ofParts (scan [a] [b])).common.isEmpty = true :=
    not_isEmpty_onSide hfront
  rw [splitFrom?, Split.ofBounds?_eq ha hb]
  simp only [Option.bind_eq_bind, Option.bind_some]
  rw [if_neg hcommon, if_neg hba, if_neg hab]

end Overlap

/-- The parts are those of a scan, in addition to what was found before. -/
theorem splitFrom?_eq (has : ∀ x ∈ as, x.last ≤ maxCode) (hbs : ∀ x ∈ bs, x.last ≤ maxCode) :
    splitFrom? found as.head? as.tail bs.head? bs.tail =
      some (found.union (.ofParts (scan as bs))) := by
  induction as, bs using scan.induct generalizing found with
  | case1 bs =>
    rw [scan]
    cases bs with
    | nil =>
      rw [List.map_nil, Split.union_ofParts_nil]
      exact splitFrom?.eq_1 ..
    | cons b bs => exact splitFrom?.eq_3 ..
  | case2 a as =>
    rw [scan]
    exact splitFrom?.eq_2 ..
  | case3 a as b bs _ _ hab ih =>
    obtain ⟨ha, has⟩ := List.forall_mem_cons.1 has
    have hb := hbs b List.mem_cons_self
    rw [scan, dif_pos hab, Split.union_ofParts_cons]
    exact (splitFrom?_of_before ha hb hab).trans (ih has hbs)
  | case4 a as b bs _ _ hab hba ih =>
    obtain ⟨hb, hbs⟩ := List.forall_mem_cons.1 hbs
    have ha := has a List.mem_cons_self
    rw [scan, dif_neg hab, dif_pos hba, Split.union_ofParts_cons]
    exact (splitFrom?_of_behind ha hb hab hba).trans (ih has hbs)
  | case5 a as b bs _ _ hab hba ihLeft ihRight ihBoth =>
    obtain ⟨ha, has⟩ := List.forall_mem_cons.1 has
    obtain ⟨hb, hbs⟩ := List.forall_mem_cons.1 hbs
    obtain ⟨front, hfront, hscan⟩ := exists_front hab hba
    -- The first parts are those of the two segments alone.
    have halone := hscan [] []
    rw [hscan, Split.union_ofParts_append]
    by_cases hlt : b.last < a.last
    · rw [dif_pos hlt, scan_singleton_nil] at halone
      rw [dif_pos hlt]
      exact (splitFrom?_of_left ha hb hfront halone hlt).trans
        (ihLeft hlt (List.forall_mem_cons.2 ⟨ha, has⟩) hbs)
    · rw [dif_neg hlt] at halone ⊢
      by_cases hlt' : a.last < b.last
      · rw [dif_pos hlt', scan_nil_singleton] at halone
        rw [dif_pos hlt']
        exact (splitFrom?_of_right ha hb hfront halone hlt').trans
          (ihRight hlt' has (List.forall_mem_cons.2 ⟨hb, hbs⟩))
      · rw [dif_neg hlt', scan_nil, List.map_nil, List.append_nil] at halone
        rw [dif_neg hlt', ← halone]
        exact (splitFrom?_of_both ha hb (halone ▸ hfront) hlt hlt').trans (ihBoth has hbs)

/-- Up to the last codepoint, words hold all that is computed, and the parts are those of `split`. -/
theorem split?_eq (hs : s.Bounded) (ht : t.Bounded) : s.split? t = some (s.split t) := by
  unfold split?
  rw [splitFrom?_eq hs ht, Split.empty_union_ofParts]
  rfl

/-- So do they hold what is computed when a set is cut along the bounds of another. -/
theorem refine?_eq (hs : s.Bounded) (ht : t.Bounded) : s.refine? t = some (s.refine t) := by
  unfold refine? refine
  rw [split?_eq hs ht]
  simp only [Option.bind_eq_bind, Option.bind_some]
  split
  · rfl
  · rfl

/-! ### Cutting along the bounds of many sets -/

/-- The parts of bounded sets are bounded. -/
theorem bounded_onSide (hs : s.Bounded) (ht : t.Bounded) (side : Side) :
    (onSide side (scan s.toList t.toList)).Bounded := by
  intro p hp
  obtain ⟨hleft, hright⟩ := (cuts_scan s.toList t.toList).within _ (mem_onSide.1 hp)
  cases side with
  | right =>
    obtain ⟨x, hx, hwithin⟩ := hright nofun
    exact Nat.le_trans hwithin.2 (ht x hx)
  | common | left =>
    obtain ⟨x, hx, hwithin⟩ := hleft nofun
    exact Nat.le_trans hwithin.2 (hs x hx)

/-- The union of bounded sets is bounded. -/
theorem Bounded.union (hs : s.Bounded) (ht : t.Bounded) : Bounded (SortedSet.union s t) :=
  fun x hx => (SortedSet.mem_union.1 hx).elim (hs x) (ht x)

/-- Cutting does not reach beyond the last codepoint. -/
theorem Bounded.refine (hs : s.Bounded) (ht : t.Bounded) : (s.refine t).1.Bounded := by
  unfold Segments.refine
  simp only
  split
  · exact hs
  · exact (bounded_onSide hs ht .left).union
      ((bounded_onSide hs ht .common).union (bounded_onSide hs ht .right))

/-- Words hold all that is computed when a set is cut along the bounds of many. -/
theorem foldlM_refine? {sets : List Segments} (hs : s.Bounded) (hsets : ∀ t ∈ sets, t.Bounded) :
    sets.foldlM (fun parts t => Prod.fst <$> parts.refine? t) s =
      some (sets.foldl (fun parts t => (parts.refine t).1) s) := by
  induction sets generalizing s with
  | nil => rfl
  | cons t sets ih =>
    obtain ⟨ht, hsets⟩ := List.forall_mem_cons.1 hsets
    rw [List.foldlM_cons, refine?_eq hs ht]
    exact ih (hs.refine ht) hsets

end Segments

end Lexwright

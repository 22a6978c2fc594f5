/-!
# `Lexwright.SortedSet`: finite sets kept as increasing lists

A set is the strictly increasing list of its members, so two sets with the same members are
equal, and their order of enumeration is the order of the type.

* `TotalOrder`: a decided strict total order.
* `SortedSet`: the sets, with `insert`, `ofList` and `union`.
* `mem_insert`, `mem_ofList`, `mem_union`: what each operation does to the members.
* `ext`: a set is determined by its members.
* `StateSet`: the sets of states of an automaton.
* `countP_lt_countP`: a search that never meets a thing twice has always fewer things before it.
-/

set_option autoImplicit false

namespace Lexwright

/-- A strict total order, decided by a Boolean test. -/
class TotalOrder (α : Type) where
  lt : α → α → Bool
  irrefl : ∀ a, lt a a = false
  trans : ∀ {a b c}, lt a b = true → lt b c = true → lt a c = true
  total : ∀ a b, lt a b = true ∨ a = b ∨ lt b a = true

instance : TotalOrder Nat where
  lt a b := decide (a < b)
  irrefl a := by simp
  trans h k := by simp only [decide_eq_true_eq] at h k ⊢; omega
  total a b := by simp only [decide_eq_true_eq]; omega

open TotalOrder (lt)

variable {α : Type} [TotalOrder α]

/-- Increasing from each member to every later one. -/
abbrev Increasing (members : List α) : Prop :=
  members.Pairwise fun a b => lt a b = true

/-- A finite set, as the increasing list of its members. -/
structure SortedSet (α : Type) [TotalOrder α] where
  toList : List α
  increasing : Increasing toList

namespace SortedSet

instance [DecidableEq α] : DecidableEq (SortedSet α) := fun s t =>
  decidable_of_iff (s.toList = t.toList) (by cases s; cases t; simp)

instance [DecidableEq α] : LawfulBEq (SortedSet α) := inferInstance

instance [Hashable α] : Hashable (SortedSet α) := ⟨fun s => hash s.toList⟩

instance : Membership α (SortedSet α) := ⟨fun s a => a ∈ s.toList⟩

/-- The members of a set are those of its list. -/
theorem mem_toList {s : SortedSet α} {a : α} : a ∈ s.toList ↔ a ∈ s := Iff.rfl

instance [DecidableEq α] (a : α) (s : SortedSet α) : Decidable (a ∈ s) :=
  inferInstanceAs (Decidable (a ∈ s.toList))

/-- The set without members. -/
def empty : SortedSet α := ⟨[], .nil⟩

instance : Inhabited (SortedSet α) := ⟨empty⟩
instance : EmptyCollection (SortedSet α) := ⟨empty⟩

/-- The empty set has no members. -/
theorem not_mem_empty (a : α) : ¬a ∈ (empty : SortedSet α) := List.not_mem_nil

/-- Whether the set has no member. -/
def isEmpty (s : SortedSet α) : Bool := s.toList.isEmpty

/-- Number of members. -/
def size (s : SortedSet α) : Nat := s.toList.length

/-- Puts `a` into an increasing list, unless it is there. -/
def insertInto (a : α) : List α → List α
  | [] => [a]
  | b :: rest =>
    if lt a b then a :: b :: rest
    else if lt b a then b :: insertInto a rest
    else b :: rest

/-- An insertion adds one member. -/
theorem mem_insertInto (a x : α) (members : List α) :
    x ∈ insertInto a members ↔ x = a ∨ x ∈ members := by
  induction members with
  | nil => simp [insertInto]
  | cons b rest ih =>
    unfold insertInto
    split
    · simp
    · split
      · simp only [List.mem_cons, ih]
        constructor
        · rintro (h | h | h) <;> simp [h]
        · rintro (h | h | h) <;> simp [h]
      · rename_i hab hba
        -- neither is less, so the head is `a` itself
        have hEq : a = b := by
          rcases TotalOrder.total a b with h | h | h
          · exact absurd h hab
          · exact h
          · exact absurd h hba
        subst hEq
        simp

/-- The member is put in its place. -/
theorem increasing_insertInto (a : α) {members : List α} (h : Increasing members) :
    Increasing (insertInto a members) := by
  induction members with
  | nil => simp [insertInto]
  | cons b rest ih =>
    obtain ⟨hHead, hRest⟩ := List.pairwise_cons.1 h
    unfold insertInto
    split
    · rename_i hab
      refine List.pairwise_cons.2 ⟨fun x hx => ?_, h⟩
      rcases List.mem_cons.1 hx with rfl | hx
      · exact hab
      · exact TotalOrder.trans hab (hHead x hx)
    · split
      · rename_i hba
        refine List.pairwise_cons.2 ⟨fun x hx => ?_, ih hRest⟩
        rcases (mem_insertInto a x rest).1 hx with rfl | hx
        · exact hba
        · exact hHead x hx
      · exact h

/-- The set with one more member. -/
def insert (s : SortedSet α) (a : α) : SortedSet α :=
  ⟨insertInto a s.toList, increasing_insertInto a s.increasing⟩

/-- An insertion adds one member. -/
theorem mem_insert {s : SortedSet α} {a x : α} : x ∈ s.insert a ↔ x = a ∨ x ∈ s :=
  mem_insertInto a x s.toList

/-- The set of the members of a list. Sorting first leaves each insertion at the front. -/
def ofList (members : List α) : SortedSet α :=
  (members.mergeSort fun a b => !lt b a).foldr (fun a s => s.insert a) empty

/-- The set of a list has the members of the list. -/
theorem mem_ofList {members : List α} {x : α} : x ∈ ofList members ↔ x ∈ members := by
  have hFold : ∀ l : List α, x ∈ l.foldr (fun a s => SortedSet.insert s a) empty ↔ x ∈ l := by
    intro l
    induction l with
    | nil => simp [not_mem_empty]
    | cons a rest ih => simp [mem_insert, ih]
  exact (hFold _).trans List.mem_mergeSort

/-- The set of one member. -/
def singleton (a : α) : SortedSet α := ⟨[a], by simp⟩

/-- Joins two increasing lists. -/
def merge : List α → List α → List α
  | [], bs => bs
  | a :: as, [] => a :: as
  | a :: as, b :: bs =>
    if lt a b then a :: merge as (b :: bs)
    else if lt b a then b :: merge (a :: as) bs
    else a :: merge as bs
termination_by as bs => as.length + bs.length

/-- A merged list has the members of both lists. -/
theorem mem_merge (as bs : List α) (x : α) : x ∈ merge as bs ↔ x ∈ as ∨ x ∈ bs := by
  fun_induction merge as bs with
  | case1 => simp
  | case2 => simp
  | case3 a as b bs h ih => simp [ih, or_assoc]
  | case4 a as b bs h k ih => simp only [List.mem_cons, ih]; grind
  | case5 a as b bs h k ih =>
    have hEq : a = b := by
      rcases TotalOrder.total a b with e | e | e
      · exact absurd e h
      · exact e
      · exact absurd e k
    subst hEq
    simp only [List.mem_cons, ih]; grind

/-- Merging takes the lower of the two first members each time, so the result is in order. -/
theorem increasing_merge {as bs : List α} (ha : Increasing as) (hb : Increasing bs) :
    Increasing (merge as bs) := by
  fun_induction merge as bs with
  | case1 => exact hb
  | case2 => exact ha
  | case3 a as b bs h ih =>
    obtain ⟨haHead, haRest⟩ := List.pairwise_cons.1 ha
    obtain ⟨hbHead, _⟩ := List.pairwise_cons.1 hb
    -- The head of the merged list is below everything in both lists.
    refine List.pairwise_cons.2 ⟨fun x hx => ?_, ih haRest hb⟩
    rcases (mem_merge _ _ x).1 hx with hx | hx
    · exact haHead x hx
    · rcases List.mem_cons.1 hx with rfl | hx
      · exact h
      · exact TotalOrder.trans h (hbHead x hx)
  | case4 a as b bs _ h ih =>
    obtain ⟨haHead, _⟩ := List.pairwise_cons.1 ha
    obtain ⟨hbHead, hbRest⟩ := List.pairwise_cons.1 hb
    refine List.pairwise_cons.2 ⟨fun x hx => ?_, ih ha hbRest⟩
    rcases (mem_merge _ _ x).1 hx with hx | hx
    · rcases List.mem_cons.1 hx with rfl | hx
      · exact h
      · exact TotalOrder.trans h (haHead x hx)
    · exact hbHead x hx
  | case5 a as b bs h k ih =>
    obtain ⟨haHead, haRest⟩ := List.pairwise_cons.1 ha
    obtain ⟨hbHead, hbRest⟩ := List.pairwise_cons.1 hb
    have hEq : a = b := by
      rcases TotalOrder.total a b with e | e | e
      · exact absurd e h
      · exact e
      · exact absurd e k
    subst hEq
    refine List.pairwise_cons.2 ⟨fun x hx => ?_, ih haRest hbRest⟩
    rcases (mem_merge _ _ x).1 hx with hx | hx
    · exact haHead x hx
    · exact hbHead x hx

/-- The members of either set. -/
def union (s t : SortedSet α) : SortedSet α :=
  ⟨merge s.toList t.toList, increasing_merge s.increasing t.increasing⟩

/-- The union has the members of both sets. -/
theorem mem_union {s t : SortedSet α} {x : α} : x ∈ s.union t ↔ x ∈ s ∨ x ∈ t :=
  mem_merge s.toList t.toList x

/-- Lexicographic comparison of the members in increasing order. -/
def before [BEq α] (s t : SortedSet α) : Bool :=
  s.toList.lex t.toList lt

/-- A set is determined by its members. -/
theorem ext {s t : SortedSet α} (h : ∀ a, a ∈ s ↔ a ∈ t) : s = t := by
  obtain ⟨as, ha⟩ := s
  obtain ⟨bs, hb⟩ := t
  have hList : as = bs := by
    have hMem : ∀ x, x ∈ as ↔ x ∈ bs := h
    clear h
    induction as generalizing bs with
    | nil =>
      cases bs with
      | nil => rfl
      | cons b bs => exact absurd ((hMem b).2 (List.mem_cons_self ..)) List.not_mem_nil
    | cons a as ih =>
      cases bs with
      | nil => exact absurd ((hMem a).1 (List.mem_cons_self ..)) List.not_mem_nil
      | cons b bs =>
        obtain ⟨haHead, haRest⟩ := List.pairwise_cons.1 ha
        obtain ⟨hbHead, hbRest⟩ := List.pairwise_cons.1 hb
        -- The least elements are equal: neither is greater than the other.
        have hab : a = b := by
          rcases List.mem_cons.1 ((hMem a).1 (List.mem_cons_self ..)) with e | e
          · exact e
          · rcases List.mem_cons.1 ((hMem b).2 (List.mem_cons_self ..)) with e' | e'
            · exact e'.symm
            · have := TotalOrder.trans (haHead b e') (hbHead a e)
              rw [TotalOrder.irrefl] at this
              exact absurd this (by decide)
        subst hab
        -- The other elements are greater than the least one, so they are in the other rest.
        have hTail : as = bs := by
          refine ih haRest bs hbRest fun x => ⟨fun hx => ?_, fun hx => ?_⟩
          · rcases List.mem_cons.1 ((hMem x).1 (List.mem_cons_of_mem _ hx)) with rfl | hx'
            · have := haHead x hx
              rw [TotalOrder.irrefl] at this
              exact absurd this (by decide)
            · exact hx'
          · rcases List.mem_cons.1 ((hMem x).2 (List.mem_cons_of_mem _ hx)) with rfl | hx'
            · have := hbHead x hx
              rw [TotalOrder.irrefl] at this
              exact absurd this (by decide)
            · exact hx'
        rw [hTail]
  subst hList
  rfl

/-- An increasing list is the list of its set. -/
theorem toList_ofList {members : List α} (h : Increasing members) :
    (ofList members).toList = members :=
  congrArg toList (ext (t := ⟨members, h⟩) fun _ => mem_ofList)

end SortedSet

/-- A set of states of an automaton. -/
abbrev StateSet := SortedSet Nat

/-- The members between braces. -/
def StateSet.display (s : StateSet) : String :=
  "\x7b" ++ String.intercalate ", " (s.toList.map toString) ++ "\x7d"

/-- A count falls when its condition is narrowed and a member drops out. -/
theorem countP_lt_countP {α : Type} {p q : α → Bool} {l : List α} {a : α}
    (h : ∀ x ∈ l, p x = true → q x = true) (ha : a ∈ l) (hq : q a = true) (hp : p a = false) :
    l.countP p < l.countP q := by
  induction l with
  | nil => cases ha
  | cons b l ih =>
    have hLe : l.countP p ≤ l.countP q :=
      List.countP_mono_left fun x hx => h x (List.mem_cons_of_mem _ hx)
    rcases List.mem_cons.1 ha with rfl | ha
    · simp only [List.countP_cons, hq, hp]
      simp
      omega
    · have hLt := ih (fun x hx => h x (List.mem_cons_of_mem _ hx)) ha
      have hb := h b (List.mem_cons_self ..)
      simp only [List.countP_cons]
      by_cases hpb : p b = true
      · simp [hpb, hb hpb, hLt]
      · simp only [hpb, Bool.false_eq_true, if_false]
        omega

end Lexwright

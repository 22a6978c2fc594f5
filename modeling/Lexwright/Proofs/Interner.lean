import Lexwright.Interner

/-!
# `Lexwright.Proofs.Interner`: the numbers of an interner stay

`Interner.Extends` orders interners: every value keeps its number. Interning a value extends the
interner (`extends_intern`), and the number that it gives denotes the value (`get?_intern`). So a
number that was given once denotes the same value ever after.

`Counts` is about the numbers that are given one after another: each of them was given before, or is
the next one (`counts_internAll`). So in the order of first use they count from 0
(`Counts.eraseDups_eq`).
-/

set_option autoImplicit false

namespace Lexwright

/-! ### Numbers in the order of first use -/

/-- Each of the numbers is below the count of the numbers that there are, which is `n` at first, or
is that count and adds to it. In the end there are `m` numbers. -/
inductive Counts : Nat → List Nat → Nat → Prop where
  | nil (n : Nat) : Counts n [] n
  | known {n m i : Nat} {is : List Nat} (h : i < n) (rest : Counts n is m) : Counts n (i :: is) m
  | next {n m : Nat} {is : List Nat} (rest : Counts (n + 1) is m) : Counts n (n :: is) m

/-- Numbers that count on from where others stopped count together with them. -/
theorem Counts.append {n m k : Nat} {is js : List Nat} (h : Counts n is m) (h' : Counts m js k) :
    Counts n (is ++ js) k := by
  induction h with
  | nil n => exact h'
  | known hi _ ih => exact .known hi (ih h')
  | next _ ih => exact .next (ih h')

/-- Different numbers have no repetitions to be erased. -/
theorem eraseDups_range (n : Nat) : (List.range n).eraseDups = List.range n := by
  induction n with
  | zero => rfl
  | succ n ih =>
    rw [List.range_succ, List.eraseDups_append, ih]
    simp [List.removeAll, List.eraseDups_cons]

/-- Without repetitions, numbers that are given in order are all the numbers, in order. -/
theorem Counts.eraseDups_eq {n m : Nat} {is : List Nat} (h : Counts n is m) :
    (List.range n ++ is).eraseDups = List.range m := by
  induction h with
  | nil n => rw [List.append_nil, eraseDups_range]
  | @known n m i is hi rest ih =>
    rw [← ih, List.eraseDups_append, List.eraseDups_append, List.cons_removeAll]
    simp [hi]
  | @next n m is rest ih => rw [← ih, List.range_succ, List.append_assoc, List.singleton_append]

namespace Interner

variable {α : Type} [BEq α] [LawfulBEq α] [Hashable α] {n m k : Interner α} {a : α}

/-- Every value of `n` has the same number in `m`. -/
def Extends (n m : Interner α) : Prop := ∀ (i : Nat) (a : α), n.get? i = some a → m.get? i = some a

/-- Every interner extends itself. -/
theorem Extends.refl (n : Interner α) : n.Extends n := fun _ _ h => h

/-- What extends a later interner extends an earlier one. -/
theorem Extends.trans (h : n.Extends m) (h' : m.Extends k) : n.Extends k :=
  fun i a hi => h' i a (h i a hi)

/-- A number and its value determine each other. -/
theorem id?_eq_some_iff {i : Nat} : n.id? a = some i ↔ n.get? i = some a :=
  n.ids_eq_some_iff a i

/-- A value keeps its number. -/
theorem Extends.id? (h : n.Extends m) {i : Nat} (hi : n.id? a = some i) : m.id? a = some i :=
  id?_eq_some_iff.2 (h i a (id?_eq_some_iff.1 hi))

/-- The numbers in use lie below the size. -/
theorem lt_size {i : Nat} (h : n.get? i = some a) : i < n.size :=
  (Array.getElem?_eq_some_iff.1 h).1

/-- A number that was given before is still given. -/
theorem Extends.lt_size (h : n.Extends m) {i : Nat} (hi : i < n.size) : i < m.size :=
  Interner.lt_size (h i _ (Array.getElem?_eq_getElem hi))

/-- A number that was given before denotes what it denoted then. -/
theorem Extends.get?_of_lt (h : n.Extends m) {i : Nat} (hi : i < n.size) (hm : m.get? i = some a) :
    n.get? i = some a := by
  have hn : n.get? i = some n.items[i] := Array.getElem?_eq_getElem hi
  rw [hn, ← hm, h i _ hn]

/-- A new value takes the number behind all the others. -/
theorem extends_push (h : n.id? a = none) : n.Extends (n.push a h) := by
  intro i b hi
  have hlt : i < n.items.size := (Array.getElem?_eq_some_iff.1 hi).1
  show (n.items.push a)[i]? = some b
  rw [Array.getElem?_push_lt hlt, ← hi]
  exact (Array.getElem?_eq_getElem hlt).symm

/-! ### One value -/

/-- A known value gives its number, and the interner stays as it is. -/
theorem intern_of_known {i : Nat} (h : n.id? a = some i) : n.intern a = (n, i, false) := by
  unfold intern
  split
  · rename_i j hj
    rw [h] at hj
    cases hj
    rfl
  · rename_i hnew
    rw [h] at hnew
    cases hnew

/-- A new value is stored under the next number. -/
theorem intern_of_new (h : n.id? a = none) : n.intern a = (n.push a h, n.size, true) := by
  unfold intern
  split
  · rename_i j hj
    rw [h] at hj
    cases hj
  · rfl

/-- Interning a value keeps the numbers of all the others. -/
theorem extends_intern (n : Interner α) (a : α) : n.Extends (n.intern a).1 := by
  cases hid : n.id? a with
  | some i =>
    rw [intern_of_known hid]
    exact Extends.refl n
  | none =>
    rw [intern_of_new hid]
    exact extends_push hid

/-- The number that interning gives denotes the value. -/
theorem get?_intern (n : Interner α) (a : α) : (n.intern a).1.get? (n.intern a).2.1 = some a := by
  cases hid : n.id? a with
  | some i =>
    rw [intern_of_known hid]
    exact id?_eq_some_iff.1 hid
  | none =>
    rw [intern_of_new hid]
    exact Array.getElem?_push_size

/-- Interning a value adds no other value. -/
theorem eq_or_get?_of_intern {i : Nat} {b : α} (hi : (n.intern a).1.get? i = some b) :
    b = a ∨ n.get? i = some b := by
  cases hid : n.id? a with
  | some j =>
    rw [intern_of_known hid] at hi
    exact Or.inr hi
  | none =>
    rw [intern_of_new hid] at hi
    have hpush : (n.items.push a)[i]? = some b := hi
    rw [Array.getElem?_push] at hpush
    split at hpush
    · exact Or.inl (Option.some.inj hpush).symm
    · exact Or.inr hpush

/-- Interning a value that was met before changes nothing. -/
theorem intern_of_not_new (h : (n.intern a).2.2 = false) : (n.intern a).1 = n := by
  cases hid : n.id? a with
  | some i => rw [intern_of_known hid]
  | none =>
    rw [intern_of_new hid] at h
    cases h

/-- Interning gives a number that there is, and then changes nothing, or the next number. -/
theorem intern_known_or_new (n : Interner α) (a : α) :
    ((n.intern a).1 = n ∧ (n.intern a).2.1 < n.size) ∨
      ((n.intern a).1.size = n.size + 1 ∧ (n.intern a).2.1 = n.size) := by
  cases hid : n.id? a with
  | some i =>
    rw [intern_of_known hid]
    exact Or.inl ⟨rfl, lt_size (id?_eq_some_iff.1 hid)⟩
  | none =>
    rw [intern_of_new hid]
    exact Or.inr ⟨Array.size_push a, rfl⟩

/-- Interning a value adds at most one number. -/
theorem size_intern_le (n : Interner α) (a : α) : (n.intern a).1.size ≤ n.size + 1 := by
  rcases intern_known_or_new n a with ⟨heq, -⟩ | ⟨hsize, -⟩
  · rw [heq]
    exact Nat.le_succ _
  · exact Nat.le_of_eq hsize

/-- No value has two numbers. -/
theorem nodup_items (n : Interner α) : n.items.toList.Nodup := by
  refine List.pairwise_iff_getElem.2 fun i j hi hj hlt heq => ?_
  have hid : ∀ {k : Nat} (hk : k < n.items.toList.length), n.ids[n.items.toList[k]]? = some k := by
    intro k hk
    rw [n.ids_eq_some_iff, ← Array.getElem?_toList]
    exact List.getElem?_eq_getElem hk
  have hi' := hid hi
  rw [heq, hid hj] at hi'
  exact absurd (Option.some.inj hi') (Nat.ne_of_gt hlt)

/-- The values that have a number. -/
theorem mem_items_iff : a ∈ n.items.toList ↔ (n.id? a).isSome := by
  rw [Option.isSome_iff_exists]
  constructor
  · intro ha
    obtain ⟨i, hi⟩ := List.getElem?_of_mem ha
    rw [Array.getElem?_toList] at hi
    exact ⟨i, id?_eq_some_iff.2 hi⟩
  · intro ⟨i, hi⟩
    rw [Array.mem_toList_iff]
    exact Array.mem_of_getElem? (id?_eq_some_iff.1 hi)

/-- Interning a value puts it behind the others, unless it is one of them. -/
theorem toList_intern_known_or_new (n : Interner α) (a : α) :
    (n.intern a).1.items.toList = n.items.toList ∨
      (n.intern a).1.items.toList = n.items.toList ++ [a] := by
  cases hid : n.id? a with
  | some i =>
    rw [intern_of_known hid]
    exact Or.inl rfl
  | none =>
    rw [intern_of_new hid]
    exact Or.inr Array.toList_push

/-- The values are those that were interned, each at the place where it was interned first. -/
theorem toList_intern {met : List α} (h : n.items.toList = met.eraseDups) :
    (n.intern a).1.items.toList = (met ++ [a]).eraseDups := by
  have hmem : a ∈ met ↔ (n.id? a).isSome := by
    rw [← mem_items_iff, h, List.mem_eraseDups]
  rw [List.eraseDups_append, ← h]
  cases hid : n.id? a with
  | some i =>
    have ha : a ∈ met := hmem.2 (by rw [hid]; rfl)
    rw [intern_of_known hid]
    simp [List.removeAll, ha]
  | none =>
    have ha : a ∉ met := fun ha => by
      have hsome := hmem.1 ha
      rw [hid] at hsome
      cases hsome
    rw [intern_of_new hid]
    simp [List.removeAll, ha, push, List.eraseDups_cons]

/-- What was there before is the first part of what is there later. -/
theorem Extends.take_eq (h : n.Extends m) {k : Nat} (hk : k ≤ n.size) :
    m.items.toList.take k = n.items.toList.take k := by
  refine List.ext_getElem? fun i => ?_
  by_cases hi : i < k
  · have hlt : i < n.items.size := Nat.lt_of_lt_of_le hi hk
    rw [List.getElem?_take_of_lt hi, List.getElem?_take_of_lt hi, Array.getElem?_toList,
      Array.getElem?_toList, Array.getElem?_eq_getElem hlt]
    exact h i _ (Array.getElem?_eq_getElem hlt)
  · rw [List.getElem?_take_eq_none (Nat.le_of_not_lt hi),
      List.getElem?_take_eq_none (Nat.le_of_not_lt hi)]

/-- The first value has the number 0. -/
theorem get?_intern_empty (a : α) : ((empty : Interner α).intern a).1.get? 0 = some a := by
  cases hid : (empty : Interner α).id? a with
  | some i =>
    -- Nothing has a number in the empty interner.
    rw [id?_eq_some_iff] at hid
    cases hid
  | none =>
    rw [intern_of_new hid]
    rfl

/-- Interning values keeps the numbers of all those stored before. -/
theorem extends_internAll (n : Interner α) (as : List α) : n.Extends (n.internAll as).1 := by
  induction as generalizing n with
  | nil => exact Extends.refl n
  | cons a rest ih => exact (extends_intern n a).trans (ih _)

/-- Every value is answered by a number. -/
theorem length_internAll (n : Interner α) (as : List α) :
    (n.internAll as).2.length = as.length := by
  induction as generalizing n with
  | nil => rfl
  | cons a rest ih =>
    show (((n.intern a).1.internAll rest).2).length + 1 = rest.length + 1
    rw [ih]

/-- The numbers that interning a list gives denote its values, place by place. -/
theorem get?_internAll (n : Interner α) (as : List α) {j i : Nat}
    (hj : (n.internAll as).2[j]? = some i) : (n.internAll as).1.get? i = as[j]? := by
  induction as generalizing n j with
  | nil => simp [internAll] at hj
  | cons a rest ih =>
    cases j with
    | zero =>
      -- The first value keeps its number while the rest of the list is interned.
      have hi : (n.intern a).2.1 = i := by simpa [internAll] using hj
      subst hi
      exact extends_internAll _ rest _ _ (get?_intern n a)
    | succ j =>
      exact ih (n.intern a).1 (by simpa [internAll] using hj)

/-- No number is given to two values, and no value has two numbers. -/
theorem eq_of_get? {i j : Nat} (hi : n.get? i = some a) (hj : n.get? j = some a) : i = j := by
  have := id?_eq_some_iff.2 hi
  rw [id?_eq_some_iff.2 hj] at this
  exact (Option.some.inj this).symm

/-- The answer is the next number, or one that was given before. -/
theorem counts_intern (n : Interner α) (a : α) :
    Counts n.size [(n.intern a).2.1] (n.intern a).1.size := by
  rcases intern_known_or_new n a with ⟨hsame, hlt⟩ | ⟨hsize, hnew⟩
  · rw [hsame]
    exact .known hlt (.nil _)
  · rw [hsize, hnew]
    exact .next (.nil _)

/-- The numbers that interning a list gives are given in order. -/
theorem counts_internAll (n : Interner α) (as : List α) :
    Counts n.size (n.internAll as).2 (n.internAll as).1.size := by
  induction as generalizing n with
  | nil => exact .nil _
  | cons a rest ih => exact (counts_intern n a).append (ih _)

end Interner

end Lexwright

import Lexwright.Proofs.Interner

/-!
# `Lexwright.Proofs.Interner.Calls`: a new interner that is called again and again

* `Interner.after`: a new interner after the first of some values. Its values are those that it was
  given, in the order of their first calls (`toList_after`).
* `Interner.get?_after`: the number that a call gives denotes the value after every later call.
* `WordInterner`: an interner that keeps each number in a word of 32 bits, whatever the number is.
  `WordInterner.stores_after` says that the words are the numbers, cut to 32 bits. As long as there
  are no more values than words, a word and its value determine each other
  (`WordInterner.Stores.ids_eq_some_iff`).
-/

set_option autoImplicit false

namespace Lexwright

variable {α : Type} [BEq α] [LawfulBEq α] [Hashable α]

namespace Interner

variable {n : Interner α} {a : α} {values : List α}

/-- Values are interned one after another, so they may be interned in two parts. -/
theorem internAll_append (n : Interner α) (as bs : List α) :
    (n.internAll (as ++ bs)).1 = ((n.internAll as).1.internAll bs).1 := by
  induction as generalizing n with
  | nil => rfl
  | cons a as ih => exact ih (n.intern a).1

/-- Interning values in order puts those that are new behind the others. -/
theorem toList_internAll {met : List α} (h : n.items.toList = met.eraseDups) (as : List α) :
    (n.internAll as).1.items.toList = (met ++ as).eraseDups := by
  induction as generalizing n met with
  | nil =>
    rw [List.append_nil]
    exact h
  | cons a as ih =>
    show ((n.intern a).1.internAll as).1.items.toList = _
    rw [ih (toList_intern h), List.append_assoc, List.singleton_append]

/-- A new interner that was given the first `i` of the values. -/
def after (values : List α) (i : Nat) : Interner α := (empty.internAll (values.take i)).1

/-- One more call interns one more value. -/
theorem after_succ {i : Nat} (h : values[i]? = some a) :
    after values (i + 1) = ((after values i).intern a).1 := by
  rw [after, List.take_add_one, h, Option.toList_some, internAll_append]
  rfl

/-- Later calls only extend the interner. -/
theorem extends_after {i k : Nat} (h : i ≤ k) : (after values i).Extends (after values k) := by
  have htake := List.take_append_drop i (values.take k)
  rw [List.take_take, Nat.min_eq_left h] at htake
  rw [after, after, ← htake, internAll_append]
  exact extends_internAll _ _

/-- The values are those that were given, in the order of their first calls. -/
theorem toList_after (values : List α) (i : Nat) :
    (after values i).items.toList = (values.take i).eraseDups := by
  have hempty : (empty : Interner α).items.toList = ([] : List α).eraseDups := rfl
  exact toList_internAll hempty (values.take i)

/-- A value that was not given before is new. -/
theorem id?_after_eq_none_iff {i : Nat} : (after values i).id? a = none ↔ a ∉ values.take i := by
  rw [← List.mem_eraseDups, ← toList_after, mem_items_iff, Option.not_isSome_iff_eq_none]

/-- The number that a call gives denotes its value after every later call. -/
theorem get?_after {i k : Nat} (hik : i < k) (h : values[i]? = some a) :
    (after values k).get? ((after values i).intern a).2.1 = some a := by
  refine extends_after (Nat.succ_le_of_lt hik) _ _ ?_
  rw [after_succ h]
  exact get?_intern _ _

end Interner

/-! ### Numbers of 32 bits -/

/-- An interner that keeps its numbers as words of 32 bits. Whether a word holds the number is not
looked at. -/
structure WordInterner (α : Type) [BEq α] [Hashable α] where
  items : Array α := #[]
  ids : Std.HashMap α UInt32 := ∅

namespace WordInterner

/-- The word of a value, and whether the value is met for the first time. -/
def intern (w : WordInterner α) (a : α) : WordInterner α × UInt32 × Bool :=
  match w.ids[a]? with
  | some id => (w, id, false)
  | none =>
    let id := w.items.size.toUInt32
    (⟨w.items.push a, w.ids.insert a id⟩, id, true)

/-- A new interner that was given the first `i` of the values. -/
def after (values : List α) (i : Nat) : WordInterner α :=
  (values.take i).foldl (fun w a => (w.intern a).1) {}

/-- The values are those of `n`, and their words are the numbers, cut to 32 bits. -/
structure Stores (w : WordInterner α) (n : Interner α) : Prop where
  items : w.items = n.items
  ids : ∀ a, w.ids[a]? = (n.id? a).map Nat.toUInt32

variable {w : WordInterner α} {n : Interner α}

/-- A call on words answers with the same number in a word, and the words go on holding the
numbers. -/
theorem Stores.intern (h : w.Stores n) (a : α) :
    (w.intern a).1.Stores (n.intern a).1 ∧
      (w.intern a).2 = ((n.intern a).2.1.toUInt32, (n.intern a).2.2) := by
  have hid := h.ids a
  unfold WordInterner.intern
  cases hn : n.id? a with
  | some i =>
    rw [hn, Option.map_some] at hid
    rw [hid, Interner.intern_of_known hn]
    exact ⟨h, rfl⟩
  | none =>
    rw [hn, Option.map_none] at hid
    rw [hid, Interner.intern_of_new hn]
    refine ⟨⟨congrArg (·.push a) h.items, fun b => ?_⟩, ?_⟩
    · show (w.ids.insert a w.items.size.toUInt32)[b]? =
        ((n.ids.insert a n.items.size)[b]?).map Nat.toUInt32
      rw [Std.HashMap.getElem?_insert, Std.HashMap.getElem?_insert, h.ids b, h.items]
      split <;> rfl
    · show (w.items.size.toUInt32, true) = (n.items.size.toUInt32, true)
      rw [h.items]

/-- The words hold the numbers after any calls, by induction on the calls. -/
theorem stores_after (values : List α) (i : Nat) :
    (after values i).Stores (Interner.after values i) := by
  -- The calls are gone through from the first one on, with both interners at hand.
  suffices hrun : ∀ (as : List α) (w : WordInterner α) (n : Interner α), w.Stores n →
      (as.foldl (fun w a => (w.intern a).1) w).Stores (n.internAll as).1 from
    hrun (values.take i) {} .empty ⟨rfl, fun a => by simp [Interner.empty, Interner.id?]⟩
  intro as
  induction as with
  | nil => exact fun w n h => h
  | cons a as ih => exact fun w n h => ih _ _ (h.intern a).1

/-- A word and its value determine each other, as long as words suffice. -/
theorem Stores.ids_eq_some_iff (h : w.Stores n) (hsize : n.size ≤ UInt32.size) {a : α}
    {id : UInt32} : w.ids[a]? = some id ↔ w.items[id.toNat]? = some a := by
  rw [h.ids, h.items, ← n.ids_eq_some_iff, Option.map_eq_some_iff]
  constructor
  · rintro ⟨i, hi, rfl⟩
    have hlt := Nat.lt_of_lt_of_le (Interner.lt_size (Interner.id?_eq_some_iff.1 hi)) hsize
    rw [Nat.toUInt32, UInt32.toNat_ofNat_of_lt' hlt]
    exact hi
  · exact fun hi => ⟨id.toNat, hi, UInt32.ofNat_toNat⟩

end WordInterner

end Lexwright

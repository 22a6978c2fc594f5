import Std.Data.HashMap

/-!
# `Lexwright.Interner`: numbers for values, in the order they are first met

An interner gives every value that it meets a number, and gives equal values the same number.
Numbers count from 0 without gaps, so the values are an array and a number is an index. The two
directions are inverse by construction (`ids_eq_some_iff`).
-/

set_option autoImplicit false

namespace Lexwright

/-- The values met so far, with the number of each. -/
structure Interner (α : Type) [BEq α] [LawfulBEq α] [Hashable α] where
  items : Array α
  ids : Std.HashMap α Nat
  ids_eq_some_iff : ∀ (a : α) (i : Nat), ids[a]? = some i ↔ items[i]? = some a

namespace Interner

variable {α : Type} [BEq α] [LawfulBEq α] [Hashable α]

/-- No value was met. -/
def empty : Interner α where
  items := #[]
  ids := ∅
  ids_eq_some_iff := by simp

instance : Inhabited (Interner α) := ⟨empty⟩

/-- Number of values. -/
def size (n : Interner α) : Nat := n.items.size

/-- The number of a value, if the value was met. -/
def id? (n : Interner α) (a : α) : Option Nat := n.ids[a]?

/-- The value with a number. -/
def get? (n : Interner α) (i : Nat) : Option α := n.items[i]?

/-- Adds a value that was not met before. -/
def push (n : Interner α) (a : α) (h : n.id? a = none) : Interner α where
  items := n.items.push a
  ids := n.ids.insert a n.items.size
  ids_eq_some_iff := by
    intro b i
    rw [Std.HashMap.getElem?_insert, Array.getElem?_push]
    have hNew : ∀ j : Nat, n.items[j]? ≠ some a := fun j hj => by
      have := (n.ids_eq_some_iff a j).2 hj
      rw [show n.ids[a]? = none from h] at this
      exact absurd this (by simp)
    by_cases hab : a = b
    · subst hab
      by_cases hi : i = n.items.size
      · simp [hi]
      · simp only [BEq.rfl, if_true, if_neg hi]
        refine ⟨fun e => absurd (Option.some.inj e).symm hi, fun e => absurd e (hNew i)⟩
    · have hBeq : (a == b) = false := by simp [hab]
      rw [hBeq, if_neg (by simp)]
      by_cases hi : i = n.items.size
      · rw [if_pos hi, n.ids_eq_some_iff b i]
        subst hi
        simp [hab]
      · rw [if_neg hi]
        exact n.ids_eq_some_iff b i

/-- The number of a value, and whether the value is met for the first time. -/
def intern (n : Interner α) (a : α) : Interner α × Nat × Bool :=
  match h : n.id? a with
  | some i => (n, i, false)
  | none => (n.push a h, n.items.size, true)

/-- Interns values in order and gives their numbers. -/
def internAll (n : Interner α) : List α → Interner α × List Nat
  | [] => (n, [])
  | a :: rest =>
    let (n, i, _) := n.intern a
    let (n, is) := n.internAll rest
    (n, i :: is)

end Interner

end Lexwright

import Lexwright.CharClass.Compiler
import Lexwright.Tables

/-!
# `Lexwright.Proofs.Slices`: lists laid out one after another

Rows and page maps are stored alike: the lists are joined into one array, and each list is known
by the bounds of its slice. `exists_slice` says that the bounds of a list give the list back, and
`mem_rowBounds` that all bounds lie in the array.
-/

set_option autoImplicit false

namespace Lexwright

variable {α : Type}

/-- The bounds of page maps are those of rows of the same sizes. -/
theorem bounds_eq_rowBounds (start : Nat) (maps : List (List PageEntry)) :
    ClassCompiler.bounds start maps = Tables.rowBounds start (maps.map List.length) := by
  induction maps generalizing start with
  | nil => rfl
  | cons entries rest ih =>
    show (start, start + entries.length) :: _ = (start, start + entries.length) :: _
    rw [ih]

/-- There is a pair of bounds for each size. -/
theorem length_rowBounds (start : Nat) (sizes : List Nat) :
    (Tables.rowBounds start sizes).length = sizes.length := by
  induction sizes generalizing start with
  | nil => rfl
  | cons size rest ih =>
    show (Tables.rowBounds (start + size) rest).length + 1 = rest.length + 1
    rw [ih]

/-- The bounds of lists lie in the array of all their elements, behind `start`. -/
theorem mem_rowBounds {start : Nat} {lists : List (List α)} {b : Nat × Nat}
    (hb : b ∈ Tables.rowBounds start (lists.map List.length)) :
    b.1 ≤ b.2 ∧ b.2 ≤ start + lists.flatten.length := by
  induction lists generalizing start with
  | nil => cases hb
  | cons l lists ih =>
    rw [List.flatten_cons, List.length_append]
    rcases List.mem_cons.1 hb with rfl | hb
    · exact ⟨Nat.le_add_right .., by omega⟩
    · obtain ⟨hle, hend⟩ := ih hb
      exact ⟨hle, by omega⟩

/-- The bounds of lists lie in the array of all their elements. -/
theorem slice_le {lists : List (List α)} {b : Nat × Nat}
    (hb : b ∈ Tables.rowBounds 0 (lists.map List.length)) :
    b.1 ≤ b.2 ∧ b.2 ≤ lists.flatten.toArray.size := by
  obtain ⟨hle, hend⟩ := mem_rowBounds hb
  rw [Nat.zero_add] at hend
  exact ⟨hle, hend⟩

/-- The slices of lists that are laid out behind `front`. The induction moves each list to the
front once it is passed. -/
theorem exists_slice_behind (front : List α) (lists : List (List α)) {i : Nat} {l : List α}
    (h : lists[i]? = some l) :
    ∃ first, (Tables.rowBounds front.length (lists.map List.length))[i]?
        = some (first, first + l.length) ∧
      ((front ++ lists.flatten).drop first).take l.length = l := by
  induction lists generalizing front i with
  | nil => simp at h
  | cons a rest ih =>
    cases i with
    | zero =>
      have ha : a = l := by simpa using h
      subst ha
      refine ⟨front.length, rfl, ?_⟩
      rw [List.flatten_cons, List.drop_left, List.take_left]
    | succ i =>
      -- `a` is passed: it counts as part of what lies in front.
      obtain ⟨first, hbounds, hslice⟩ := ih (front ++ a) (by simpa using h)
      refine ⟨first, ?_, ?_⟩
      · rw [List.length_append] at hbounds
        exact hbounds
      · rw [List.flatten_cons, ← List.append_assoc]
        exact hslice

/-- The bounds of a list give the list back. -/
theorem exists_slice (lists : List (List α)) {i : Nat} {l : List α} (h : lists[i]? = some l) :
    ∃ first, (Tables.rowBounds 0 (lists.map List.length))[i]? = some (first, first + l.length) ∧
      (lists.flatten.toArray.extract first (first + l.length)).toList = l := by
  obtain ⟨first, hbounds, hslice⟩ := exists_slice_behind [] lists h
  refine ⟨first, hbounds, ?_⟩
  rw [List.extract_toArray, List.extract_eq_take_drop, Nat.add_sub_cancel_left]
  exact hslice

end Lexwright

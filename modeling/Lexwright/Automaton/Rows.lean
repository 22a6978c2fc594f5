import Lexwright.Automaton.Closure
import Lexwright.Interner

/-!
# `Lexwright.Automaton.Rows`: the sets of states that a lexer needs

The first row of a lexical state is its start set. Every other row is the closure of the target
of a move of a member of an earlier row. Rows are numbered in the order they are met when the
rows, and their members, are gone through in order. A lexical state without any move has no row.

* `RowSearch`: the rows of one lexical state met so far.
* `Engine.rowsFrom`: goes through the rows until no row is left.
* `Rows`: the rows of all the lexical states, numbered one state after another.
-/

set_option autoImplicit false

namespace Lexwright

/-- The rows met so far, and for the states gone through the row of the target of their move. -/
structure RowSearch where
  rows : Interner StateSet
  next : Std.HashMap Nat Nat

namespace Engine

/-- Meets the row of the target of a state's move. -/
def meet (e : Engine) (s : RowSearch) (q : Nat) : RowSearch :=
  match e.automaton.move? q with
  | none => s
  | some (_, target) =>
    if s.next.contains q then s
    else
      -- targets with one closure share a row
      let (rows, id, _) := s.rows.intern (e.closure target)
      { rows, next := s.next.insert q id }

/-- Number of rows met, and of states not yet gone through. -/
def rowBound (e : Engine) (s : RowSearch) : Nat :=
  (List.range e.automaton.states.size).countP (fun q => !s.next.contains q) + s.rows.size

/-- Meeting a state adds no row beyond the bound. -/
theorem rowBound_meet_le (e : Engine) (s : RowSearch) (q : Nat) :
    e.rowBound (e.meet s q) ≤ e.rowBound s := by
  unfold meet
  split
  · exact Nat.le_refl _
  · rename_i set target hMove
    split
    · exact Nat.le_refl _
    · rename_i hNext
      have hq : q < e.automaton.states.size := by
        unfold Automaton.move? at hMove
        cases h : e.automaton.states[q]? with
        | none => rw [h] at hMove; cases hMove
        | some st => exact (Array.getElem?_eq_some_iff.1 h).1
      have hSize : (s.rows.intern (e.closure target)).1.size ≤ s.rows.size + 1 := by
        unfold Interner.intern
        split <;> simp [Interner.size, Interner.push]
      -- There may be one row more, but one state less is without a target row.
      rcases hIntern : s.rows.intern (e.closure target) with ⟨rows, id, isNew⟩
      rw [hIntern] at hSize
      have hLt : (List.range e.automaton.states.size).countP
            (fun p => !(s.next.insert q id).contains p)
          < (List.range e.automaton.states.size).countP (fun p => !s.next.contains p) := by
        refine countP_lt_countP (a := q) (fun x _ h => ?_) (List.mem_range.2 hq)
          (by simpa using hNext) (by simp)
        simp only [Std.HashMap.contains_insert, Bool.not_or, Bool.and_eq_true] at h
        exact h.2
      simp only [rowBound] at hSize ⊢
      omega

/-- The same for all the states of a row, one after another. -/
theorem rowBound_foldl_meet_le (e : Engine) (s : RowSearch) (qs : List Nat) :
    e.rowBound (qs.foldl e.meet s) ≤ e.rowBound s := by
  induction qs generalizing s with
  | nil => exact Nat.le_refl _
  | cons q qs ih => exact Nat.le_trans (ih (e.meet s q)) (rowBound_meet_le e s q)

/-- Goes through the rows from number `row` on. -/
def rowsFrom (e : Engine) (row : Nat) (s : RowSearch) : RowSearch :=
  match h : s.rows.get? row with
  | none => s
  | some set =>
    have hRow : row < s.rows.size := (Array.getElem?_eq_some_iff.1 h).1
    have hBound := rowBound_foldl_meet_le e s set.toList
    have hSize : s.rows.size ≤ e.rowBound s := Nat.le_add_left ..
    e.rowsFrom (row + 1) (set.toList.foldl e.meet s)
termination_by e.rowBound s - row

/-- The rows of a lexical state, unless no member of its start set has a move. -/
def lexRows (e : Engine) (lexState : Nat) : Option RowSearch :=
  let start := e.startSet lexState
  if start.toList.any fun q => (e.automaton.move? q).isSome then
    some (e.rowsFrom 0 { rows := (Interner.empty.intern start).1, next := ∅ })
  else none

end Engine

/-- The rows of all the lexical states. -/
structure Rows where
  rows : Array StateSet := #[]
  /-- The rule that each row accepts. -/
  accepts : Array (Option Accept) := #[]
  /-- For each state with a move, the row of the target. -/
  nextRows : Array (Option Nat) := #[]
  /-- First row and number of rows of each lexical state that has rows. -/
  lexStates : Array (Option (Nat × Nat)) := #[]
deriving Inhabited

namespace Rows

/-- First row and number of rows of each lexical state, from row `first` on. -/
def bounds (first : Nat) : List (Option RowSearch) → List (Option (Nat × Nat))
  | [] => []
  | none :: rest => none :: bounds first rest
  | some s :: rest => some (first, s.rows.size) :: bounds (first + s.rows.size) rest

/-- The row of the target of a state's move. -/
def nextRow? (searches : Array (Option RowSearch)) (bounds : Array (Option (Nat × Nat)))
    (q : Nat) (state : State) : Option Nat :=
  match searches[state.lexState]?, bounds[state.lexState]? with
  | some (some s), some (some (first, _)) => (s.next[q]?).map (first + ·)
  | _, _ => none

/-- The rows of an automaton. -/
def ofEngine (e : Engine) : Except Conflict Rows := do
  let searches := (List.range e.automaton.lexStates.size).map e.lexRows
  let lexStates := (bounds 0 searches).toArray
  let rows := searches.flatMap fun s => (s.map fun s => s.rows.items.toList).getD []
  let accepts ← rows.mapM e.acceptOf
  return {
    rows := rows.toArray
    accepts := accepts.toArray
    nextRows := e.automaton.states.mapIdx (nextRow? searches.toArray lexStates)
    lexStates }

/-- The members of each row of a lexical state. -/
def membersOf (t : Rows) (lexState : Nat) : Option (List (List Nat)) :=
  match t.lexStates[lexState]? with
  | some (some (first, count)) =>
    some ((t.rows.extract first (first + count)).toList.map SortedSet.toList)
  | _ => none

/-- The kind that each row of a lexical state accepts. -/
def kindsOf (t : Rows) (lexState : Nat) : Option (List (Option Nat)) :=
  match t.lexStates[lexState]? with
  | some (some (first, count)) =>
    some ((t.accepts.extract first (first + count)).toList.map (·.map Accept.kind))
  | _ => none

/-- The rule that each row accepts. -/
def rules (t : Rows) : Array (Option Nat) := t.accepts.map (·.map Accept.rule)

end Rows

end Lexwright

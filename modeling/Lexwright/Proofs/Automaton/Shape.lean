import Lexwright.Proofs.Automaton.Rows

/-!
# `Lexwright.Proofs.Automaton.Shape`: rows depend on the shape of an automaton

Which states a row has is known by the edges, the start states and whether a state accepts a rule.
What is accepted there, and what is known of rules and lexical states, does not matter. So automata
of one shape have the same rows, and only the rules of the rows may differ.

* `Automaton.SameShape`: the automata differ in nothing that rows depend on.
* `Automaton.SameShape.closure_eq`: they have the same closures.
* `Automaton.SameShape.searches_eq`, `Automaton.SameShape.nextRows_eq`: they have the same rows, and
  their moves lead to the same rows.
-/

set_option autoImplicit false

namespace Lexwright

/-- The state, with no more of its rule than that there is one. -/
def State.shape (s : State) : State := { s with accept := s.accept.map fun _ => default }

/-- Whether a state is important does not depend on names. -/
theorem State.isImportant_shape (s : State) : s.shape.isImportant = s.isImportant := by
  simp [isImportant, shape]

/-- The automata have the same states, but for the rules that they accept, and the same start
states. -/
structure Automaton.SameShape (a a' : Automaton) : Prop where
  states : a'.states.map State.shape = a.states.map State.shape
  starts : a'.lexStates.map LexStateInfo.start = a.lexStates.map LexStateInfo.start

namespace Automaton.SameShape

variable {a a' : Automaton}

/-- Automata of one shape have as many states. -/
theorem size_states (h : a.SameShape a') : a'.states.size = a.states.size := by
  simpa using congrArg Array.size h.states

/-- Automata of one shape have as many lexical states. -/
theorem size_lexStates (h : a.SameShape a') : a'.lexStates.size = a.lexStates.size := by
  simpa using congrArg Array.size h.starts

/-- A state has what the other one has, unless it has to do with the rule. -/
theorem map_state {α : Type} (h : a.SameShape a') {f : State → α}
    (hf : ∀ s, f s.shape = f s) (q : Nat) : (a'.states[q]?).map f = (a.states[q]?).map f := by
  have hshape : f ∘ State.shape = f := funext hf
  have hq := congrArg (fun states : Array State => (states[q]?).map f) h.states
  simpa only [Array.getElem?_map, Option.map_map, hshape] using hq

/-- Automata of one shape have the same moves. -/
theorem move?_eq (h : a.SameShape a') (q : Nat) : a'.move? q = a.move? q := by
  have hmove := h.map_state (f := State.move) (fun _ => rfl) q
  unfold move?
  cases hs : a.states[q]? <;> cases hs' : a'.states[q]? <;> simp_all

/-- Automata of one shape have the same jumps. -/
theorem jumps_eq (h : a.SameShape a') {q : Nat} (hq : q < a.states.size)
    (hq' : q < a'.states.size) : a'.states[q].jumps = a.states[q].jumps := by
  have hjumps := h.map_state (f := State.jumps) (fun _ => rfl) q
  simpa [Array.getElem?_eq_getElem hq, Array.getElem?_eq_getElem hq'] using hjumps

/-! ### Closures -/

/-- Searches for the states that jumps reach go the same way. The cases are those of the search. -/
theorem visit_eq (h : a.SameShape a') (pending : List Nat) (seen : Std.HashSet Nat) :
    a'.visit pending seen = a.visit pending seen := by
  have hsize := h.size_states
  fun_induction visit a pending seen with
  | case1 seen => rw [visit]
  | case2 seen q rest hq hseen ih => rw [visit, dif_pos (hsize ▸ hq), dif_pos hseen, ih]
  | case3 seen q rest hq hseen _ ih =>
    rw [visit, dif_pos (hsize ▸ hq), dif_neg hseen, h.jumps_eq hq]
    exact ih
  | case4 seen q rest hq ih => rw [visit, dif_neg (hsize ▸ hq), ih]

/-- Automata of one shape have the same closures. -/
theorem closure_eq (h : a.SameShape a') (q : Nat) : a'.closure q = a.closure q := by
  have hreach : a'.reach q = a.reach q := by
    rw [reach, h.visit_eq]
    rfl
  simp only [closure, hreach, h.map_state State.isImportant_shape]

/-! ### Rows -/

/-- Automata of one shape have the same start sets. -/
theorem startSet_eq (h : a.SameShape a') (lexState : Nat) :
    (Engine.ofAutomaton a').startSet lexState = (Engine.ofAutomaton a).startSet lexState := by
  have hread : ∀ b : Automaton, (Engine.ofAutomaton b).startSet lexState =
      ((b.lexStates.map (·.start))[lexState]?.map b.closure).getD .empty := by
    intro b
    simp only [Engine.startSet, Engine.closure_ofAutomaton, Array.getElem?_map, Option.map_map]
    rw [show (Engine.ofAutomaton b).automaton = b from rfl]
    cases b.lexStates[lexState]? <;> rfl
  rw [hread, hread, h.starts, funext h.closure_eq]

/-- A search for rows meets the same sets. -/
theorem meet_eq (h : a.SameShape a') :
    (Engine.ofAutomaton a').meet = (Engine.ofAutomaton a).meet := by
  refine funext fun s => funext fun q => ?_
  simp only [Engine.meet, Engine.closure_ofAutomaton, h.closure_eq]
  rw [show (Engine.ofAutomaton a').automaton.move? q = (Engine.ofAutomaton a).automaton.move? q from
    h.move?_eq q]

end Automaton.SameShape

namespace Engine

/-- A search stops behind its last row. -/
theorem rowsFrom_of_none {e : Engine} {row : Nat} {s : RowSearch}
    (h : s.rows.get? row = none) : e.rowsFrom row s = s := by
  rw [rowsFrom]
  split
  · rfl
  · rename_i set hset
    rw [h] at hset
    cases hset

/-- A search meets the states of a row, and goes on with the next row. -/
theorem rowsFrom_of_some {e : Engine} {row : Nat} {s : RowSearch} {set : StateSet}
    (h : s.rows.get? row = some set) :
    e.rowsFrom row s = e.rowsFrom (row + 1) (set.toList.foldl e.meet s) := by
  rw [rowsFrom]
  split
  · rename_i hnone
    rw [h] at hnone
    cases hnone
  · rename_i set' hset
    rw [h] at hset
    cases hset
    rfl

end Engine

namespace Automaton.SameShape

variable {a a' : Automaton}

/-- Searches for rows go the same way, by the induction of the search. -/
theorem rowsFrom_eq (h : a.SameShape a') (row : Nat) (s : RowSearch) :
    (Engine.ofAutomaton a').rowsFrom row s = (Engine.ofAutomaton a).rowsFrom row s := by
  fun_induction Engine.rowsFrom (Engine.ofAutomaton a) row s with
  | case1 row s hnone => rw [Engine.rowsFrom_of_none hnone]
  | case2 row s set hset _ _ _ ih => rw [Engine.rowsFrom_of_some hset, h.meet_eq, ih]

/-- Every lexical state has the same rows. -/
theorem searches_eq (h : a.SameShape a') : Rows.searches a' = Rows.searches a := by
  have hrows : (Engine.ofAutomaton a').lexRows = (Engine.ofAutomaton a).lexRows := by
    refine funext fun lexState => ?_
    have hmove : (Engine.ofAutomaton a').automaton.move? = (Engine.ofAutomaton a).automaton.move? :=
      funext h.move?_eq
    simp only [Engine.lexRows, h.startSet_eq, h.rowsFrom_eq, hmove]
  rw [Rows.searches, hrows, h.size_lexStates]
  rfl

/-- The moves lead to the same rows. -/
theorem nextRows_eq (h : a.SameShape a') (searches : Array (Option RowSearch))
    (bounds : Array (Option (Nat × Nat))) :
    a'.states.mapIdx (Rows.nextRow? searches bounds) =
      a.states.mapIdx (Rows.nextRow? searches bounds) := by
  refine Array.ext_getElem? fun q => ?_
  rw [Array.getElem?_mapIdx, Array.getElem?_mapIdx]
  exact h.map_state (fun _ => rfl) q

end Automaton.SameShape

end Lexwright

import Lexwright.Proofs.Graph

/-!
# `Lexwright.Proofs.Automaton.Reach`: the closure of a state is what jumps reach

The visit goes through a list of pending states and passes over the states that it has seen.

* `exists_of_mem_visit`: every state that is added is reached from a pending one.
* `Seals`: the states found are closed under jumps, but for those seen before. The induction
  carries it, and it is closure itself when nothing was seen before.
* `mem_reach`, `mem_closure`: the states, and the important states, that jumps reach.
-/

set_option autoImplicit false

namespace Lexwright.Automaton

variable {a : Automaton} {p q : Nat}

/-- A state that has a move or accepts a rule. -/
def Important (a : Automaton) (q : Nat) : Prop := (a.move? q).isSome ∨ (a.accept? q).isSome

/-- The test says which states are important. -/
theorem isImportant_iff :
    (a.states[q]?.map State.isImportant).getD false = true ↔ a.Important q := by
  unfold Important move? accept?
  cases a.states[q]? with
  | none => simp
  | some s =>
    show (s.move.isSome || s.accept.isSome) = true ↔ s.move.isSome = true ∨ s.accept.isSome = true
    rw [Bool.or_eq_true]

/-- Only states that exist are important. -/
theorem Important.lt_size (h : a.Important q) : q < a.states.size := by
  rw [← isImportant_iff] at h
  cases hs : a.states[q]? with
  | none =>
    rw [hs] at h
    cases h
  | some s => exact (Array.getElem?_eq_some_iff.1 hs).1

/-! ### The visit -/

/-- Every state that is added is reached from a pending one. -/
theorem exists_of_mem_visit {pending : List Nat} {seen : Std.HashSet Nat}
    (hq : q ∈ a.visit pending seen) :
    q ∈ seen ∨ (q < a.states.size ∧ ∃ p ∈ pending, a.graph.Path p [] q) := by
  -- By induction on the visits: what is found lies behind a pending state, or was seen before.
  fun_induction visit a pending seen with
  | case1 seen => exact Or.inl hq
  | case2 seen p rest hp hseen ih =>
    rcases ih hq with hq | ⟨hlt, p', hp', hpath⟩
    · exact Or.inl hq
    · exact Or.inr ⟨hlt, p', List.mem_cons_of_mem _ hp', hpath⟩
  | case3 seen p rest hp hseen _ ih =>
    rcases ih hq with hq | ⟨hlt, p', hp', hpath⟩
    · rcases Std.HashSet.mem_insert.1 hq with heq | hq
      · rw [← eq_of_beq heq]
        exact Or.inr ⟨hp, p, List.mem_cons_self, .refl p⟩
      · exact Or.inl hq
    · refine Or.inr ⟨hlt, ?_⟩
      rcases List.mem_append.1 hp' with hjump | hp'
      · refine ⟨p, List.mem_cons_self, .jump ⟨a.states[p], ?_, ?_⟩ hpath⟩
        · exact Array.getElem?_eq_getElem hp
        · exact Array.mem_toList_iff.1 hjump
      · exact ⟨p', List.mem_cons_of_mem _ hp', hpath⟩
  | case4 seen p rest hp ih =>
    rcases ih hq with hq | ⟨hlt, p', hp', hpath⟩
    · exact Or.inl hq
    · exact Or.inr ⟨hlt, p', List.mem_cons_of_mem _ hp', hpath⟩

/-- The states found include those seen before and the pending ones, and a jump leads out of them
from a state seen before only. -/
structure Seals (a : Automaton) (pending : List Nat) (seen found : Std.HashSet Nat) : Prop where
  kept : ∀ q ∈ seen, q ∈ found
  started : ∀ q ∈ pending, q < a.states.size → q ∈ found
  jump : ∀ p q, p ∈ found → ¬p ∈ seen → a.graph.jump p q → q < a.states.size → q ∈ found

/-- A search leaves no jump open: what it has seen is sealed. The cases are those of the search. -/
theorem seals_visit (pending : List Nat) (seen : Std.HashSet Nat) :
    a.Seals pending seen (a.visit pending seen) := by
  fun_induction visit a pending seen with
  | case1 seen =>
    exact ⟨fun q hq => hq, fun q hq => absurd hq List.not_mem_nil,
      fun p q hp hnew => absurd hp hnew⟩
  | case2 seen p rest hp hseen ih =>
    refine ⟨ih.kept, fun q hq hlt => ?_, ih.jump⟩
    rcases List.mem_cons.1 hq with rfl | hq
    · exact ih.kept q hseen
    · exact ih.started q hq hlt
  | case3 seen p rest hp hseen _ ih =>
    have hfound : p ∈ a.visit (a.states[p].jumps.toList ++ rest) (seen.insert p) :=
      ih.kept p Std.HashSet.mem_insert_self
    refine ⟨fun q hq => ih.kept q (Std.HashSet.mem_insert.2 (Or.inr hq)), fun q hq hlt => ?_,
      fun p' q hp' hnew hjump hlt => ?_⟩
    · rcases List.mem_cons.1 hq with rfl | hq
      · exact hfound
      · exact ih.started q (List.mem_append_right _ hq) hlt
    · by_cases heq : p' = p
      · -- The jumps of the state just seen are pending now.
        subst heq
        obtain ⟨s, hs, hq⟩ := hjump
        rw [Array.getElem?_eq_getElem hp] at hs
        cases hs
        exact ih.started q (List.mem_append_left _ (Array.mem_toList_iff.2 hq)) hlt
      · refine ih.jump p' q hp' (fun hmem => ?_) hjump hlt
        rcases Std.HashSet.mem_insert.1 hmem with h | h
        · exact heq (eq_of_beq h).symm
        · exact hnew h
  | case4 seen p rest hp ih =>
    refine ⟨ih.kept, fun q hq hlt => ?_, ih.jump⟩
    rcases List.mem_cons.1 hq with rfl | hq
    · exact absurd hlt hp
    · exact ih.started q hq hlt

/-- A path by jumps to a state that exists starts at one. -/
theorem lt_size_of_path (hpath : a.graph.Path p [] q) (hq : q < a.states.size) :
    p < a.states.size := by
  generalize hword : ([] : List Char) = w at hpath
  cases hpath with
  | refl => exact hq
  | jump h _ =>
    obtain ⟨s, hs, _⟩ := h
    exact (Array.getElem?_eq_some_iff.1 hs).1
  | move => cases hword

/-- The states that jumps reach. -/
theorem mem_reach : q ∈ a.reach p ↔ q < a.states.size ∧ a.graph.Path p [] q := by
  unfold reach
  rw [SortedSet.mem_ofList, Std.HashSet.mem_toList]
  constructor
  · intro hq
    rcases exists_of_mem_visit hq with hq | ⟨hlt, p', hp', hpath⟩
    · exact absurd hq Std.HashSet.not_mem_empty
    · rw [List.mem_singleton] at hp'
      subst hp'
      exact ⟨hlt, hpath⟩
  · intro ⟨hlt, hpath⟩
    have hseals := seals_visit (a := a) [p] ∅
    -- From a state that is found, jumps lead to states that are found.
    have hfound : ∀ {x w y}, a.graph.Path x w y → w = [] → y < a.states.size →
        x ∈ a.visit [p] ∅ → y ∈ a.visit [p] ∅ := by
      intro x w y hpath
      induction hpath with
      | refl x => exact fun _ _ hx => hx
      | jump hjump hrest ih =>
        intro hw hy hx
        subst hw
        exact ih rfl hy (hseals.jump _ _ hx Std.HashSet.not_mem_empty hjump
          (lt_size_of_path hrest hy))
      | move => exact fun hw => nomatch hw
    exact hfound hpath rfl hlt
      (hseals.started p List.mem_cons_self (lt_size_of_path hpath hlt))

/-- The important states that jumps reach. -/
theorem mem_closure : q ∈ a.closure p ↔ a.Important q ∧ a.graph.Path p [] q := by
  unfold closure
  rw [SortedSet.mem_ofList, List.mem_filter, isImportant_iff, SortedSet.mem_toList, mem_reach]
  constructor
  · intro ⟨⟨_, hpath⟩, himportant⟩
    exact ⟨himportant, hpath⟩
  · intro ⟨himportant, hpath⟩
    exact ⟨⟨himportant.lt_size, hpath⟩, himportant⟩

end Lexwright.Automaton

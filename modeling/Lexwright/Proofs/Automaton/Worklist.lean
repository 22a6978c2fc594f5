import Lexwright.Proofs.Automaton.Reach
import Mathlib.Algebra.BigOperators.Group.Finset.Basic
import Mathlib.Logic.Relation

/-!
# `Lexwright.Proofs.Automaton.Worklist`: the search for what jumps reach comes to an end

The search keeps a stack of states. A round takes the state on top. If it is a new one, it is kept
and the targets of its jumps are put on the stack, so the stack can grow, and states that were kept
can be put there again: where jumps lead in circles, and where two jumps have one target. Nothing
but the states themselves bounds the rounds.

* `Automaton.searchWithin`: the search, given up after a number of rounds.
* `Automaton.Pending`: what holds between two rounds. `Pending.pop` and `Pending.push` keep it.
* `Automaton.work`: the rounds that are left, for the states on the stack and for the jumps of the
  states that were not kept. `work_push` says that a round that keeps a state uses up just one.
* `Automaton.searchWithin_eq`: the search ends when no work is left, and not before.
* `Automaton.search_exact`: it ends with the states that jumps reach.
-/

set_option autoImplicit false

namespace Lexwright

namespace Automaton

variable {a : Automaton} {p q : Nat} {stack rest : List Nat} {kept : StateSet}

/-- The states that jumps reach from those on the stack, after `kept`. Gives nothing if a state
does not exist, or if states are left on the stack after `fuel` rounds. -/
def searchWithin (a : Automaton) : Nat → List Nat → StateSet → Option StateSet
  | _, [], kept => some kept
  | 0, _ :: _, _ => none
  | fuel + 1, q :: rest, kept =>
    if q ∈ kept then a.searchWithin fuel rest kept
    else do
      let s ← a.states[q]?
      -- the target of the last jump comes to lie on top
      a.searchWithin fuel (s.jumps.toList.reverse ++ rest) (kept.insert q)

/-- Every jump leads to a state that exists. -/
def JumpsWithin (a : Automaton) : Prop := ∀ p q, a.graph.jump p q → q < a.states.size

/-- Number of jumps of a state. -/
def jumpCount (a : Automaton) (q : Nat) : Nat := (a.states[q]?.map (·.jumps.size)).getD 0

/-- The jumps of a state are those that the search puts on its stack. -/
theorem jump_iff {s : State} (hs : a.states[p]? = some s) :
    a.graph.jump p q ↔ q ∈ s.jumps.toList.reverse := by
  rw [List.mem_reverse, Array.mem_toList_iff]
  constructor
  · intro ⟨s', hs', hq⟩
    rw [hs] at hs'
    cases hs'
    exact hq
  · exact fun hq => ⟨s, hs, hq⟩

/-- A path that reads nothing consists of jumps. -/
theorem path_nil_iff : a.graph.Path p [] q ↔ Relation.ReflTransGen a.graph.jump p q := by
  constructor
  · intro h
    generalize hword : ([] : List Char) = w at h
    induction h with
    | refl => exact .refl
    | jump h _ ih => exact .head h (ih hword)
    | move => cases hword
  · intro h
    induction h with
    | refl => exact .refl p
    | tail _ h ih => exact ih.snoc h

/-! ### Between two rounds -/

/-- What is on the stack and what is kept is reached from `p`, and nothing is lost: `p` is kept or
on the stack, and so is the target of every jump of a kept state. -/
structure Pending (a : Automaton) (p : Nat) (stack : List Nat) (kept : StateSet) : Prop where
  reached : ∀ q, q ∈ stack ∨ q ∈ kept → q ∈ a.reach p
  start : p ∈ kept ∨ p ∈ stack
  jump : ∀ x y, x ∈ kept → a.graph.jump x y → y ∈ kept ∨ y ∈ stack

/-- A search starts with one state on the stack and nothing kept. -/
theorem pending_start (hp : p < a.states.size) : a.Pending p [p] .empty where
  reached q hq := by
    rcases hq with hq | hq
    · rw [List.mem_singleton.1 hq]
      exact mem_reach.2 ⟨hp, .refl p⟩
    · exact absurd hq (SortedSet.not_mem_empty q)
  start := Or.inr List.mem_cons_self
  jump x _ hx := absurd hx (SortedSet.not_mem_empty x)

/-- A state that was kept before is taken off the stack. -/
theorem Pending.pop (h : a.Pending p (q :: rest) kept) (hq : q ∈ kept) :
    a.Pending p rest kept := by
  have hdrop : ∀ y, y ∈ kept ∨ y ∈ q :: rest → y ∈ kept ∨ y ∈ rest := by
    rintro y (hy | hy)
    · exact Or.inl hy
    · rcases List.mem_cons.1 hy with rfl | hy
      · exact Or.inl hq
      · exact Or.inr hy
  exact ⟨fun y hy => h.reached y (hy.imp_left (List.mem_cons_of_mem q)), hdrop p h.start,
    fun x y hx hxy => hdrop y (h.jump x y hx hxy)⟩

/-- A new state is kept, and the targets of its jumps take its place on the stack. -/
theorem Pending.push (h : a.Pending p (q :: rest) kept) (hwithin : a.JumpsWithin) {s : State}
    (hs : a.states[q]? = some s) :
    a.Pending p (s.jumps.toList.reverse ++ rest) (kept.insert q) := by
  have hmove : ∀ y, y ∈ kept ∨ y ∈ q :: rest →
      y ∈ kept.insert q ∨ y ∈ s.jumps.toList.reverse ++ rest := by
    rintro y (hy | hy)
    · exact Or.inl (SortedSet.mem_insert.2 (Or.inr hy))
    · rcases List.mem_cons.1 hy with rfl | hy
      · exact Or.inl (SortedSet.mem_insert.2 (Or.inl rfl))
      · exact Or.inr (List.mem_append_right _ hy)
  have hreached := h.reached q (Or.inl List.mem_cons_self)
  refine ⟨fun y hy => ?_, hmove p h.start, fun x y hx hxy => ?_⟩
  · rcases hy with hy | hy
    · rcases List.mem_append.1 hy with hy | hy
      · have hjump := (jump_iff hs).2 hy
        exact mem_reach.2 ⟨hwithin q y hjump, (mem_reach.1 hreached).2.snoc hjump⟩
      · exact h.reached y (Or.inl (List.mem_cons_of_mem q hy))
    · rcases SortedSet.mem_insert.1 hy with rfl | hy
      · exact hreached
      · exact h.reached y (Or.inr hy)
  · rcases SortedSet.mem_insert.1 hx with rfl | hx
    · exact Or.inr (List.mem_append_left _ ((jump_iff hs).1 hxy))
    · exact hmove y (h.jump x y hx hxy)

/-- When nothing is left on the stack, everything that is reached was kept. -/
theorem Pending.kept_eq (h : a.Pending p [] kept) : kept = a.reach p := by
  refine SortedSet.ext fun q => ⟨fun hq => h.reached q (Or.inr hq), fun hq => ?_⟩
  have hpath := path_nil_iff.1 (mem_reach.1 hq).2
  induction hpath with
  | refl => exact h.start.resolve_right List.not_mem_nil
  | tail hpath hjump ih =>
    have hlt := lt_size_of_path (.jump hjump (.refl _)) (mem_reach.1 hq).1
    exact (h.jump _ _ (ih (mem_reach.2 ⟨hlt, path_nil_iff.2 hpath⟩)) hjump).resolve_right
      List.not_mem_nil

/-! ### The rounds that are left -/

/-- One round for each state on the stack, and one for each jump of a state that is reached but was
not kept. -/
def work (a : Automaton) (p : Nat) (stack : List Nat) (kept : StateSet) : Nat :=
  stack.length + ∑ q ∈ (a.reach p).toList.toFinset with ¬q ∈ kept, a.jumpCount q

/-- What is put on the stack was to be expected from the state that is kept. -/
theorem work_push {s : State} (hs : a.states[q]? = some s) (hq : q ∈ a.reach p)
    (hnew : ¬q ∈ kept) :
    a.work p (s.jumps.toList.reverse ++ rest) (kept.insert q) + 1 = a.work p (q :: rest) kept := by
  have hothers : (a.reach p).toList.toFinset.filter (fun x => ¬x ∈ kept.insert q) =
      ((a.reach p).toList.toFinset.filter fun x => ¬x ∈ kept).erase q := by
    ext x
    simp only [Finset.mem_filter, Finset.mem_erase, SortedSet.mem_insert, not_or]
    exact and_left_comm
  have hmem : q ∈ (a.reach p).toList.toFinset.filter fun x => ¬x ∈ kept :=
    Finset.mem_filter.2 ⟨List.mem_toFinset.2 hq, hnew⟩
  have hcount : a.jumpCount q = s.jumps.size := by
    unfold jumpCount
    rw [hs]
    rfl
  unfold work
  rw [hothers, ← Finset.add_sum_erase _ a.jumpCount hmem, hcount, List.length_append,
    List.length_reverse, Array.length_toList, List.length_cons]
  omega

/-- When nothing is left on the stack, no work is left. -/
theorem Pending.work_eq_zero (h : a.Pending p [] kept) : a.work p [] kept = 0 := by
  have hnone : (a.reach p).toList.toFinset.filter (fun q => ¬q ∈ kept) = ∅ := by
    refine Finset.filter_eq_empty_iff.2 fun q hq hnew => hnew ?_
    rw [h.kept_eq]
    exact List.mem_toFinset.1 hq
  unfold work
  rw [hnone, Finset.sum_empty]
  rfl

/-- The search ends when no work is left, and not before. -/
theorem searchWithin_eq (hwithin : a.JumpsWithin) (fuel : Nat) (h : a.Pending p stack kept) :
    a.searchWithin fuel stack kept =
      if a.work p stack kept ≤ fuel then some (a.reach p) else none := by
  fun_induction searchWithin a fuel stack kept with
  | case1 fuel kept => rw [h.work_eq_zero, if_pos (Nat.zero_le fuel), h.kept_eq]
  | case2 kept q rest =>
    rw [if_neg]
    unfold work
    rw [List.length_cons]
    omega
  | case3 fuel q rest kept hq ih =>
    have hwork : a.work p (q :: rest) kept = a.work p rest kept + 1 := Nat.add_right_comm ..
    rw [ih (h.pop hq), hwork]
    exact if_congr Nat.add_le_add_iff_right.symm rfl rfl
  | case4 fuel q rest kept hnew ih =>
    have hq := h.reached q (Or.inl List.mem_cons_self)
    have hlt := (mem_reach.1 hq).1
    have hs : a.states[q]? = some a.states[q] := Array.getElem?_eq_getElem hlt
    simp only [hs, Option.bind_eq_bind, Option.bind_some]
    rw [ih _ (h.push hwithin hs), ← work_push hs hq hnew]
    exact if_congr Nat.add_le_add_iff_right.symm rfl rfl

/-- Number of rounds of the search: one for the state itself, and one for each jump of a state that
is reached. -/
def rounds (a : Automaton) (p : Nat) : Nat :=
  1 + ∑ q ∈ (a.reach p).toList.toFinset, a.jumpCount q

/-- However the jumps lead in circles, and however often they lead to one state: the search ends
after a known number of rounds, and no sooner, and has found the states that any number of jumps
reach. -/
theorem search_exact (hwithin : a.JumpsWithin) (hp : p < a.states.size) :
    (∀ fuel, a.searchWithin fuel [p] .empty =
      if a.rounds p ≤ fuel then some (a.reach p) else none) ∧
      ∀ q, q ∈ a.reach p ↔ Relation.ReflTransGen a.graph.jump p q := by
  have hwork : a.work p [p] .empty = a.rounds p := by
    unfold work rounds
    rw [Finset.filter_true_of_mem fun q _ => SortedSet.not_mem_empty q]
    rfl
  refine ⟨fun fuel => ?_, fun q => ?_⟩
  · rw [searchWithin_eq hwithin fuel (pending_start hp), hwork]
  · rw [mem_reach, path_nil_iff, and_iff_right_iff_imp]
    intro hjumps
    -- The last state exists, since a jump leads to it, unless it is the first one.
    rcases hjumps.cases_tail with rfl | ⟨x, -, hjump⟩
    · exact hp
    · exact hwithin x q hjump

/-- Jumps in circles, to the state itself, and twice to one state. The last state jumps to the
others, and no jump leads to it. -/
def tangled : Automaton where
  states := #[
    { lexState := 0, jumps := #[1, 0, 1] },
    { lexState := 0, jumps := #[2, 0] },
    { lexState := 0, jumps := #[2] },
    { lexState := 0, jumps := #[0] }]

/-- The search takes one round for each of the six jumps that it meets, and one for the state with
which it begins. -/
theorem search_exact_tangled : tangled.JumpsWithin ∧ 0 < tangled.states.size ∧
    tangled.searchWithin 6 [0] .empty = none ∧
    tangled.searchWithin 7 [0] .empty = some (tangled.reach 0) ∧
    ∀ q, Relation.ReflTransGen tangled.graph.jump 0 q ↔ q ∈ [0, 1, 2] := by
  have hwithin : tangled.JumpsWithin := by
    intro p q hjump
    obtain ⟨s, hs, hq⟩ := hjump
    have hall : ∀ s ∈ tangled.states, ∀ q ∈ s.jumps, q < 4 := by decide
    exact hall s (Array.mem_of_getElem? hs) q hq
  obtain ⟨hsearch, hreach⟩ := search_exact hwithin (by decide : 0 < tangled.states.size)
  have hlist : (tangled.searchWithin 7 [0] .empty).map SortedSet.toList = some [0, 1, 2] := by
    decide
  obtain ⟨found, hlast, hlist⟩ := Option.map_eq_some_iff.1 hlist
  have hfound : tangled.reach 0 = found := by
    rw [hsearch, Option.ite_none_right_eq_some] at hlast
    exact Option.some.inj hlast.2
  refine ⟨hwithin, by decide, by decide, hlast.trans (congrArg some hfound.symm), fun q => ?_⟩
  rw [← hreach, hfound, ← SortedSet.mem_toList, hlist]

end Automaton

end Lexwright

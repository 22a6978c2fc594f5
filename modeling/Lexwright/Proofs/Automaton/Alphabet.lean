import Lexwright.Automaton.Closure
import Lexwright.Proofs.Segments.Split
import Mathlib.Data.List.Permutation

/-!
# `Lexwright.Proofs.Automaton.Alphabet`: what a set of states can tell apart

The engine cuts the sets of the moves of a set of states along each other's bounds. All the
characters of one part lead to the same states, and a character outside of the parts leads nowhere.

* `Automaton.Normal`: the condition on the moves, with which a look-up decides membership.
* `Engine.partitions_partition`: the parts belong to the sets of the moves.
* `Engine.step_eq_of_covers`, `Engine.step_of_not_covers`: what the parts say of a character.
* `Engine.partition_homogeneous`: all of this together, and that words of 32 bits hold the parts.
-/

set_option autoImplicit false

namespace Lexwright

open Segments

/-- The sets of the moves are normalized. -/
def Automaton.Normal (a : Automaton) : Prop :=
  ∀ {q target : Nat} {set : Segments}, a.move? q = some (set, target) → set.IsNormal

/-- No set of a move reaches beyond the last codepoint. -/
def Automaton.Bounded (a : Automaton) : Prop :=
  ∀ {q target : Nat} {set : Segments}, a.move? q = some (set, target) → set.Bounded

namespace Engine

variable {e : Engine} {active : StateSet} {c d : Char}

/-- The sets of the moves of some states. -/
def moveSets (e : Engine) (active : StateSet) : List Segments :=
  (active.toList.filterMap e.automaton.move?).map Prod.fst

/-- The sets of the moves that leave the active states. -/
theorem mem_moveSets {set : Segments} : set ∈ e.moveSets active ↔
    ∃ q ∈ active, ∃ target, e.automaton.move? q = some (set, target) := by
  unfold moveSets
  rw [List.mem_map]
  constructor
  · rintro ⟨⟨set, target⟩, hmove, rfl⟩
    obtain ⟨q, hq, hmove⟩ := List.mem_filterMap.1 hmove
    exact ⟨q, hq, target, hmove⟩
  · rintro ⟨q, hq, target, hmove⟩
    exact ⟨(set, target), List.mem_filterMap.2 ⟨q, hq, hmove⟩, rfl⟩

/-- The parts of the alphabet belong to the sets of the moves. -/
theorem partitions_partition (h : e.automaton.Normal) (active : StateSet) :
    Partitions (e.moveSets active) (e.partition active) := by
  have hseparate : ∀ set ∈ e.moveSets active, Separate set.toList := by
    intro set hset
    obtain ⟨q, _, target, hmove⟩ := mem_moveSets.1 hset
    exact (h hmove).separate
  have hfold := partitions_foldl partitions_empty hseparate
  unfold moveSets at hfold
  rw [List.nil_append, List.foldl_map] at hfold
  exact hfold

/-- Characters that the moves do not tell apart lead to the same states. -/
theorem step_congr (h : e.automaton.Normal)
    (hsame : ∀ set ∈ e.moveSets active, set.Covers c.toNat ↔ set.Covers d.toNat) :
    e.step active c = e.step active d := by
  unfold step
  refine List.foldl_ext _ _ _ fun next q hq => ?_
  cases hmove : e.automaton.move? q with
  | none => rfl
  | some m =>
    obtain ⟨set, target⟩ := m
    have hset := hsame set (mem_moveSets.2 ⟨q, hq, target, hmove⟩)
    rw [← contains_iff_covers (h hmove), ← contains_iff_covers (h hmove),
      ← Bool.eq_iff_iff] at hset
    simp only [hset]

/-- The characters of one part lead to the same states. -/
theorem step_eq_of_covers (h : e.automaton.Normal) {part : Seg}
    (hpart : part ∈ (e.partition active).toList) (hc : part.Covers c.toNat)
    (hd : part.Covers d.toNat) : e.step active c = e.step active d := by
  refine step_congr h fun set hset => ?_
  rcases (partitions_partition h active).homogeneous part hpart set hset with hall | hnone
  · exact iff_of_true (hall _ hc) (hall _ hd)
  · exact iff_of_false (hnone _ hc) (hnone _ hd)

/-- A character outside of the parts leads nowhere. -/
theorem step_of_not_covers (h : e.automaton.Normal)
    (hc : ¬(e.partition active).Covers c.toNat) : e.step active c = SortedSet.empty := by
  rw [(partitions_partition h active).covers_iff] at hc
  have hstay : e.step active c = active.toList.foldl (fun next _ => next) SortedSet.empty := by
    unfold step
    refine List.foldl_ext _ _ _ fun next q hq => ?_
    cases hmove : e.automaton.move? q with
    | none => rfl
    | some m =>
      obtain ⟨set, target⟩ := m
      -- The set of a move that reads the character would cover it.
      refine if_neg fun hcontains => hc ⟨set, mem_moveSets.2 ⟨q, hq, target, hmove⟩, ?_⟩
      exact (contains_iff_covers (h hmove)).1 hcontains
  rw [hstay]
  exact List.foldl_fixed' (fun _ => rfl) _

/-- The sets of the moves of the members, cut along each other's bounds in words of 32 bits. -/
def partition? (e : Engine) (set : StateSet) : Option Segments :=
  (e.moveSets set).foldlM (fun parts moveSet => Prod.fst <$> parts.refine? moveSet) .empty

/-- On words, the partition is the partition: bounds of characters leave room for a successor. -/
theorem partition?_eq (h : e.automaton.Bounded) (active : StateSet) :
    e.partition? active = some (e.partition active) := by
  have hsets : ∀ set ∈ e.moveSets active, set.Bounded := by
    intro set hset
    obtain ⟨q, _, target, hmove⟩ := mem_moveSets.1 hset
    exact h hmove
  unfold partition?
  rw [foldlM_refine? (fun _ hx => absurd hx List.not_mem_nil) hsets, moveSets, List.foldl_map]
  rfl

/-- The alphabet of a set of states is cut in words of 32 bits. The parts are disjoint, and they
cover what the moves of the states cover. The characters of one part lead to the same states, and a
character outside of the parts leads nowhere. -/
theorem partition_homogeneous (h : e.automaton.Normal) (hbounded : e.automaton.Bounded)
    (active : StateSet) :
    e.partition? active = some (e.partition active) ∧
      (e.partition active).toList.Pairwise Seg.Disjoint ∧
      (∀ code, (e.partition active).Covers code ↔
        ∃ q ∈ active, ∃ set target, e.automaton.move? q = some (set, target) ∧ set.Covers code) ∧
      (∀ part ∈ (e.partition active).toList, ∀ c d : Char, part.Covers c.toNat →
        part.Covers d.toNat → e.step active c = e.step active d) ∧
      ∀ c : Char, ¬(e.partition active).Covers c.toNat → e.step active c = SortedSet.empty := by
  have hparts := partitions_partition h active
  refine ⟨partition?_eq hbounded active, separate_iff_disjoint.1 hparts.separate, fun code => ?_,
    fun part hpart c d => step_eq_of_covers h hpart, fun c => step_of_not_covers h⟩
  rw [hparts.covers_iff]
  constructor
  · rintro ⟨set, hset, hcode⟩
    obtain ⟨q, hq, target, hmove⟩ := mem_moveSets.1 hset
    exact ⟨q, hq, set, target, hmove, hcode⟩
  · rintro ⟨q, hq, set, target, hmove, hcode⟩
    exact ⟨set, mem_moveSets.2 ⟨q, hq, target, hmove⟩, hcode⟩

/-- Two states whose moves both read the letters from `d` to `f`. One move goes up to the last
codepoint, across the surrogate gap. -/
def crossing : Automaton where
  states := #[
    { lexState := 0, move := some (⟨[⟨97, 102, by decide⟩], by decide⟩, 1) },
    { lexState := 0, accept := some ⟨0, 0, 1⟩ },
    { lexState := 0, move := some
        (⟨[⟨100, 110, by decide⟩, ⟨0xd000, 0x10ffff, by decide⟩], by decide⟩, 3) },
    { lexState := 0, accept := some ⟨1, 1, 2⟩ }]

/-- The sets of the sample are normalized and bounded. -/
theorem normal_crossing : crossing.Normal ∧ crossing.Bounded := by
  have hall : ∀ s ∈ crossing.states, ∀ move ∈ s.move, move.1.IsNormal ∧ move.1.Bounded := by
    unfold Segments.IsNormal Segments.Bounded
    decide
  constructor
  · intro q target set h
    obtain ⟨s, hs, hmove⟩ := Option.bind_eq_some_iff.1 h
    exact (hall s (Array.mem_of_getElem? hs) _ hmove).1
  · intro q target set h
    obtain ⟨s, hs, hmove⟩ := Option.bind_eq_some_iff.1 h
    exact (hall s (Array.mem_of_getElem? hs) _ hmove).2

/-- In the example `d` and `f` lead to the same states, and `z` leads nowhere. -/
theorem partition_homogeneous_crossing :
    crossing.Normal ∧ crossing.Bounded ∧
      (ofAutomaton crossing).partition? (.ofList [0, 2]) =
        some ((ofAutomaton crossing).partition (.ofList [0, 2])) ∧
      (ofAutomaton crossing).step (.ofList [0, 2]) 'd' =
        (ofAutomaton crossing).step (.ofList [0, 2]) 'f' ∧
      (ofAutomaton crossing).step (.ofList [0, 2]) 'z' = SortedSet.empty := by
  obtain ⟨hwords, -, -, hsame, hnowhere⟩ := @partition_homogeneous (ofAutomaton crossing)
    normal_crossing.1 normal_crossing.2 (.ofList [0, 2])
  refine ⟨normal_crossing.1, normal_crossing.2, hwords, ?_, hnowhere 'z' fun hcode => ?_⟩
  · have hpart : ((ofAutomaton crossing).partition (.ofList [0, 2])).toList.any
        (fun part => decide (part.Covers 100 ∧ part.Covers 102)) = true := by
      cbv
    obtain ⟨part, hmem, hcovers⟩ := List.any_eq_true.1 hpart
    obtain ⟨hd, hf⟩ := of_decide_eq_true hcovers
    exact hsame part hmem 'd' 'f' hd hf
  · have hout : ((ofAutomaton crossing).partition (.ofList [0, 2])).covers 122 = false := by
      cbv
    exact absurd (covers_iff.2 hcode) (by rw [show 'z'.toNat = 122 from rfl, hout]; decide)

end Engine

end Lexwright

import Lexwright.Automaton.Diagnostics
import Lexwright.Proofs.Automaton.Alphabet
import Lexwright.Proofs.Automaton.Subset
import Lexwright.Proofs.Interner
import Mathlib.Data.Set.Card

/-!
# `Lexwright.Proofs.Automaton.Explore`: an exploration meets every set of states

An exploration reads the first character of each part of the alphabet. The other characters of the
part lead to the same set, so nothing is missed.

* `Engine.tracks_after`: the states after a text are those to which paths lead that read it.
* `Engine.Reached`: the sets to which texts lead.
* `Exploration.Sound`: an exploration met only such sets, and selected only their rules.
* `Exploration.Explored`: it knows what every character makes of a set.
* `Engine.exists_exploreParts`, `Engine.exists_exploreFrom`: what one set adds, and what a whole run
  adds.
* `Engine.exists_explore`: an exploration is complete exactly when there are no more sets than the
  limit, and then it selected exactly the rules that texts select.
-/

set_option autoImplicit false

namespace Lexwright

namespace Engine

/-- The states after a text. -/
def after (e : Engine) (i : Nat) (w : List Char) : StateSet := w.foldl e.step (e.startSet i)

/-- The start set, and the sets to which texts lead, unless they are empty. -/
def Reached (e : Engine) (i : Nat) : Set StateSet :=
  {set | ∃ w, e.after i w = set ∧ (w = [] ∨ ¬set.isEmpty = true)}

/-- A text that is not empty leads to a set that accepts the rule. -/
def Selected (e : Engine) (i id : Nat) : Prop :=
  ∃ w acc, w ≠ [] ∧ e.acceptOf (e.after i w) = .ok (some acc) ∧ acc.rule = id

/-- The moves have normalized sets of scalar values, and no two rules conflict. -/
structure Explorable (e : Engine) (i : Nat) : Prop where
  normal : e.automaton.Normal
  scalars : ∀ {q target : Nat} {set : Segments}, e.automaton.move? q = some (set, target) →
    set.Scalars
  accepts : ∀ w, ∃ r, e.acceptOf (e.after i w) = .ok r

variable {e : Engine} {i : Nat} {active set : StateSet} {c : Char} {w : List Char}

/-- One more character is one more step. -/
theorem after_concat (e : Engine) (i : Nat) (w : List Char) (c : Char) :
    e.after i (w ++ [c]) = e.step (e.after i w) c := by
  unfold after
  rw [List.foldl_append]
  rfl

/-- After a text, the set has the important states to which paths lead that read it. -/
theorem tracks_after {a : Automaton} {info : LexStateInfo} (h : a.Separate)
    (hinfo : a.lexStates[i]? = some info) (w : List Char) :
    a.Tracks info.start w ((ofAutomaton a).after i w) := by
  induction w using List.reverseRecOn with
  | nil => exact Automaton.tracks_startSet hinfo
  | append_singleton w c ih =>
    rw [after_concat]
    exact ih.step h

/-- Nothing is active after a step from nothing. -/
theorem step_of_isEmpty (h : active.isEmpty = true) : e.step active c = SortedSet.empty := by
  unfold step
  unfold SortedSet.isEmpty at h
  rw [List.isEmpty_iff.1 h]
  rfl

/-- A step that leads somewhere starts somewhere. -/
theorem not_isEmpty_of_step (hstep : ¬(e.step active c).isEmpty = true) :
    ¬active.isEmpty = true := by
  intro hempty
  rw [step_of_isEmpty hempty] at hstep
  exact hstep rfl

/-- A step that leads somewhere leads from a set that a text reaches to a set that a longer text
reaches. -/
theorem mem_reached_step (hset : set ∈ e.Reached i) (hstep : ¬(e.step set c).isEmpty = true) :
    ∃ w, e.after i (w ++ [c]) = e.step set c ∧ e.step set c ∈ e.Reached i := by
  obtain ⟨w, rfl, -⟩ := hset
  rw [← after_concat] at hstep ⊢
  exact ⟨w, rfl, _, rfl, Or.inr hstep⟩

/-- The empty set accepts nothing. -/
theorem acceptOf_of_isEmpty (h : set.isEmpty = true) : e.acceptOf set = .ok none := by
  unfold acceptOf
  unfold SortedSet.isEmpty at h
  rw [List.isEmpty_iff.1 h]
  rfl

/-- The first character of a part stands for every character that leads anywhere. -/
theorem exists_part (h : e.Explorable i) (hstep : ¬(e.step active c).isEmpty = true) :
    ∃ part ∈ (e.partition active).toList, ∃ d, Text.charOfCode? part.first = some d ∧
      e.step active d = e.step active c := by
  have hcovers : (e.partition active).Covers c.toNat := by
    refine Classical.byContradiction fun hnot => hstep ?_
    rw [step_of_not_covers h.normal hnot]
    rfl
  obtain ⟨part, hpart, hc⟩ := hcovers
  -- The first codepoint of the part is one of a move, so it is a character.
  have hfirst : (e.partition active).Covers part.first :=
    ⟨part, hpart, Nat.le_refl _, part.first_le_last⟩
  obtain ⟨set, hset, hcode⟩ := ((partitions_partition h.normal active).covers_iff _).1 hfirst
  obtain ⟨q, _, target, hmove⟩ := mem_moveSets.1 hset
  have hchar : Text.charOfCode? part.first = some (Char.ofNat part.first) :=
    if_pos (h.scalars hmove _ hcode)
  refine ⟨part, hpart, _, hchar, step_eq_of_covers h.normal hpart ?_ hc⟩
  rw [Text.toNat_of_charOfCode? hchar]
  exact ⟨Nat.le_refl _, part.first_le_last⟩

/-! ### What an exploration knows -/

namespace Exploration

variable {x y z : Exploration}

/-- The set was met. -/
def Met (x : Exploration) (set : StateSet) : Prop := ∃ n, x.sets.get? n = some set

/-- The numbers in use lie below the size. -/
theorem lt_size_of_get? {n : Nat} (h : x.sets.get? n = some set) : n < x.sets.size :=
  (Array.getElem?_eq_some_iff.1 h).1

/-- Whatever was met and selected stays so. -/
structure Le (x y : Exploration) : Prop where
  sets : x.sets.Extends y.sets
  selected : ∀ id ∈ x.selected, id ∈ y.selected

/-- An exploration has met what it has met. -/
theorem Le.refl (x : Exploration) : x.Le x := ⟨.refl _, fun _ h => h⟩

/-- What has met all that a later exploration has met has met all that an earlier one has. -/
theorem Le.trans (h : x.Le y) (h' : y.Le z) : x.Le z :=
  ⟨h.sets.trans h'.sets, fun id hid => h'.selected id (h.selected id hid)⟩

/-- The set was met, and its rule was selected. -/
structure Knows (x : Exploration) (e : Engine) (set : StateSet) : Prop where
  met : x.Met set
  selected : ∀ acc, e.acceptOf set = .ok (some acc) → acc.rule ∈ x.selected

/-- A known set stays known. -/
theorem Knows.mono (h : x.Knows e set) (hle : x.Le y) : y.Knows e set := by
  obtain ⟨n, hn⟩ := h.met
  exact ⟨⟨n, hle.sets n set hn⟩, fun acc hacc => hle.selected _ (h.selected acc hacc)⟩

/-- What a character makes of the set is known. -/
def Tried (x : Exploration) (e : Engine) (set : StateSet) (c : Char) : Prop :=
  ¬(e.step set c).isEmpty = true → x.Knows e (e.step set c)

/-- What every character makes of the set is known. -/
def Explored (x : Exploration) (e : Engine) (set : StateSet) : Prop := ∀ c, x.Tried e set c

/-- An explored set stays explored. -/
theorem Explored.mono (h : x.Explored e set) (hle : x.Le y) : y.Explored e set :=
  fun c hstep => (h c hstep).mono hle

/-- Only sets that are reached were met, and only rules that are selected were selected. -/
structure Sound (x : Exploration) (e : Engine) (i : Nat) : Prop where
  sets : ∀ set, x.Met set → set ∈ e.Reached i
  selected : ∀ id ∈ x.selected, e.Selected i id

/-- The exploration with one more set and its rule. -/
def meet (x : Exploration) (set : StateSet) (accept : Option Accept) : Exploration where
  sets := (x.sets.intern set).1
  selected := match accept with
    | some accept => x.selected.insert accept.rule
    | none => x.selected
  complete := x.complete

/-- Meeting one more set forgets none. -/
theorem le_meet (x : Exploration) (set : StateSet) (accept : Option Accept) :
    x.Le (x.meet set accept) := by
  refine ⟨x.sets.extends_intern set, fun id hid => ?_⟩
  cases accept with
  | none => exact hid
  | some accept => exact Std.HashSet.mem_insert.2 (Or.inr hid)

/-- A set that was met is known, with the rule that it accepts. -/
theorem knows_meet {accept : Option Accept} (h : e.acceptOf set = .ok accept) :
    (x.meet set accept).Knows e set := by
  refine ⟨⟨_, x.sets.get?_intern set⟩, fun acc hacc => ?_⟩
  rw [h] at hacc
  cases hacc
  exact Std.HashSet.mem_insert.2 (Or.inl BEq.rfl)

/-- Meeting a set that a text reaches keeps the exploration sound. -/
theorem Sound.meet (h : x.Sound e i) (hset : set ∈ e.Reached i)
    (hw : e.after i w = set ∧ w ≠ []) {accept : Option Accept}
    (haccept : e.acceptOf set = .ok accept) : (x.meet set accept).Sound e i := by
  refine ⟨fun other ⟨n, hn⟩ => ?_, fun id hid => ?_⟩
  · rcases Interner.eq_or_get?_of_intern hn with rfl | hn
    · exact hset
    · exact h.sets other ⟨n, hn⟩
  · cases accept with
    | none => exact h.selected id hid
    | some accept =>
      rcases Std.HashSet.mem_insert.1 hid with heq | hid
      · obtain ⟨rfl, hne⟩ := hw
        exact ⟨w, accept, hne, haccept, eq_of_beq heq⟩
      · exact h.selected id hid

/-- The exploration met `limit` sets at most, unless it has stopped. -/
structure Within (x : Exploration) (e : Engine) (i limit : Nat) : Prop where
  sound : x.Sound e i
  size_le : x.complete = true → x.sets.size ≤ limit
  lt_size : x.complete = false → limit < x.sets.size

variable {limit : Nat} {accept : Option Accept}

/-- Whether one more set is one too many. -/
def exceeds (x : Exploration) (limit : Nat) (set : StateSet) (accept : Option Accept) : Bool :=
  (x.sets.intern set).2.2 && decide (limit < (x.meet set accept).sets.size)

/-- The exploration stops with the set that is one too many. -/
theorem Within.stop (h : (x.meet set accept).Sound e i)
    (hexceeds : x.exceeds limit set accept = true) :
    Within { x.meet set accept with complete := false } e i limit where
  sound := ⟨h.sets, h.selected⟩
  size_le := nofun
  lt_size _ := of_decide_eq_true (Bool.and_eq_true_iff.1 hexceeds).2

/-- The exploration goes on with a set that it knew, or that is not too many. -/
theorem Within.meet (hx : x.Within e i limit) (hcomplete : x.complete = true)
    (h : (x.meet set accept).Sound e i) (hexceeds : ¬x.exceeds limit set accept = true) :
    (x.meet set accept).Within e i limit where
  sound := h
  size_le _ := by
    unfold exceeds at hexceeds
    by_cases hnew : (x.sets.intern set).2.2 = true
    · rw [hnew, Bool.true_and, decide_eq_true_iff] at hexceeds
      exact Nat.le_of_not_lt hexceeds
    · show (x.sets.intern set).1.size ≤ limit
      rw [Interner.intern_of_not_new (Bool.eq_false_iff.2 hnew)]
      exact hx.size_le hcomplete
  lt_size hstop := absurd hcomplete (Bool.eq_false_iff.1 hstop)

end Exploration

/-! ### One set -/

open Exploration

variable {limit : Nat} {x : Exploration}

/-- A part of the alphabet whose characters lead nowhere is passed over. -/
theorem exploreParts_skip (part : Seg) (rest : List Seg)
    (hskip : ∀ d, Text.charOfCode? part.first = some d → (e.step set d).isEmpty = true) :
    e.exploreParts limit set x (part :: rest) = e.exploreParts limit set x rest := by
  rw [exploreParts]
  cases hd : Text.charOfCode? part.first with
  | none => rfl
  | some d => exact if_pos (hskip d hd)

/-- One more part: the set to which it leads is met, and may be one too many. -/
theorem exploreParts_cons (part : Seg) (rest : List Seg) {d : Char}
    (hd : Text.charOfCode? part.first = some d) (hstep : ¬(e.step set d).isEmpty = true)
    {accept : Option Accept} (haccept : e.acceptOf (e.step set d) = .ok accept) :
    e.exploreParts limit set x (part :: rest) =
      if x.exceeds limit (e.step set d) accept then
        .ok { x.meet (e.step set d) accept with complete := false }
      else e.exploreParts limit set (x.meet (e.step set d) accept) rest := by
  rw [exploreParts]
  simp only [hd, haccept]
  rw [if_neg hstep]
  rfl

/-- What the parts of the alphabet add to an exploration, by induction on them. -/
theorem exists_exploreParts (h : e.Explorable i) (hset : set ∈ e.Reached i) (parts : List Seg)
    (hx : x.Within e i limit) (hcomplete : x.complete = true) :
    ∃ y, e.exploreParts limit set x parts = .ok y ∧ x.Le y ∧ y.Within e i limit ∧
      (y.complete = true → ∀ part ∈ parts, ∀ d, Text.charOfCode? part.first = some d →
        y.Tried e set d) := by
  induction parts generalizing x with
  | nil => exact ⟨x, rfl, .refl x, hx, fun _ part hpart => absurd hpart List.not_mem_nil⟩
  | cons part rest ih =>
    -- A part is tried with its first character, and skipped if nothing is reached.
    by_cases hskip : ∀ d, Text.charOfCode? part.first = some d → (e.step set d).isEmpty = true
    · obtain ⟨y, hy, hle, hwithin, htried⟩ := ih hx hcomplete
      refine ⟨y, (exploreParts_skip part rest hskip).trans hy, hle, hwithin, fun hy =>
        List.forall_mem_cons.2 ⟨fun d hd hstep => ?_, htried hy⟩⟩
      exact absurd (hskip d hd) hstep
    · obtain ⟨d, hd⟩ := Classical.not_forall.1 hskip
      obtain ⟨hd, hstep⟩ := Classical.not_imp.1 hd
      obtain ⟨w, hw, hreached⟩ := mem_reached_step hset hstep
      obtain ⟨accept, haccept⟩ := h.accepts (w ++ [d])
      rw [hw] at haccept
      have hsound : (x.meet (e.step set d) accept).Sound e i :=
        hx.sound.meet hreached ⟨hw, List.append_ne_nil_of_right_ne_nil _ nofun⟩ haccept
      have hle := le_meet x (e.step set d) accept
      rw [exploreParts_cons part rest hd hstep haccept]
      -- With one set too many the search stops.
      by_cases hexceeds : x.exceeds limit (e.step set d) accept = true
      · rw [if_pos hexceeds]
        exact ⟨_, rfl, ⟨hle.sets, hle.selected⟩, .stop hsound hexceeds, nofun⟩
      · rw [if_neg hexceeds]
        obtain ⟨y, hy, hle', hwithin, htried⟩ := ih (hx.meet hcomplete hsound hexceeds) hcomplete
        refine ⟨y, hy, hle.trans hle', hwithin, fun hy =>
          List.forall_mem_cons.2 ⟨fun d' hd' _ => ?_, htried hy⟩⟩
        rw [← Option.some.inj (hd.symm.trans hd')]
        exact (knows_meet haccept).mono hle'

/-- A set whose parts were all tried is explored: every character does what the first one of its
part does. -/
theorem explored_of_tried (h : e.Explorable i)
    (htried : ∀ part ∈ (e.partition set).toList, ∀ d,
      Text.charOfCode? part.first = some d → x.Tried e set d) : x.Explored e set := by
  intro c hstep
  obtain ⟨part, hpart, d, hd, hsame⟩ := exists_part h hstep
  rw [← hsame] at hstep ⊢
  exact htried part hpart d hd hstep

/-! ### A whole run -/

/-- A run that goes on from a number, all the sets before it being explored, explores all that it
meets, unless it stops. -/
theorem exists_exploreFrom (h : e.Explorable i) (index : Nat) (hx : x.Within e i limit)
    (hcomplete : x.complete = true)
    (hdone : ∀ n set, n < index → x.sets.get? n = some set → x.Explored e set) :
    ∃ y, e.exploreFrom limit index x = .ok y ∧ x.Le y ∧ y.Within e i limit ∧
      (y.complete = true → ∀ set, y.Met set → y.Explored e set) := by
  fun_induction exploreFrom e limit index x with
  | case1 index x hlt hnone =>
    refine ⟨x, rfl, .refl x, hx, fun _ set ⟨n, hn⟩ => hdone n set ?_ hn⟩
    have hsize : x.sets.size ≤ index := Array.getElem?_eq_none_iff.1 hnone
    exact Nat.lt_of_lt_of_le (lt_size_of_get? hn) hsize
  | case2 index x hlt set hset ih =>
    obtain ⟨y, hy, hle, hwithin, htried⟩ := exists_exploreParts h
      (hx.sound.sets set ⟨index, hset⟩) (e.partition set).toList hx hcomplete
    rw [hy]
    show ∃ z, (if y.complete = true then e.exploreFrom limit (index + 1) y else .ok y) = .ok z ∧ _
    by_cases hcomplete' : y.complete = true
    · rw [if_pos hcomplete']
      -- The sets up to this one were met before, and keep their numbers.
      have hdone' : ∀ n set, n < index + 1 → y.sets.get? n = some set → y.Explored e set := by
        intro n other hn hother
        rcases Nat.lt_succ_iff_lt_or_eq.1 hn with hn | rfl
        · have hlast := lt_size_of_get? hset
          have hold := hle.sets.get?_of_lt (Nat.lt_trans hn hlast) hother
          exact (hdone n other hn hold).mono hle
        · rw [hle.sets n set hset] at hother
          cases hother
          exact explored_of_tried h (htried hcomplete')
      obtain ⟨z, hz, hle', hwithin', hexplored⟩ := ih y hwithin hcomplete' hdone'
      exact ⟨z, hz, hle.trans hle', hwithin', hexplored⟩
    · rw [if_neg hcomplete']
      exact ⟨y, rfl, hle, hwithin, fun h => absurd h hcomplete'⟩
  | case3 index x hlt =>
    refine ⟨x, rfl, .refl x, hx, fun _ set ⟨n, hn⟩ => hdone n set ?_ hn⟩
    have := lt_size_of_get? hn
    have := hx.size_le hcomplete
    omega

/-! ### All the sets -/

/-- An exploration that met the start set and explored all that it met has met every set. -/
theorem met_after (hstart : x.Met (e.startSet i)) (hexplored : ∀ set, x.Met set → x.Explored e set)
    (w : List Char) (hw : w = [] ∨ ¬(e.after i w).isEmpty = true) : x.Met (e.after i w) := by
  induction w using List.reverseRecOn with
  | nil => exact hstart
  | append_singleton w c ih =>
    rw [after_concat] at hw ⊢
    have hstep := hw.resolve_left (List.append_ne_nil_of_right_ne_nil _ nofun)
    exact (hexplored _ (ih (Or.inr (not_isEmpty_of_step hstep))) c hstep).met

/-- An exploration that met the start set and explored all that it met has selected every rule. -/
theorem mem_selected (hstart : x.Met (e.startSet i))
    (hexplored : ∀ set, x.Met set → x.Explored e set) {id : Nat} (h : e.Selected i id) :
    id ∈ x.selected := by
  obtain ⟨w, acc, hne, haccept, rfl⟩ := h
  obtain ⟨v, c, rfl⟩ := (List.eq_nil_or_concat' w).resolve_left hne
  rw [after_concat] at haccept
  have hstep : ¬(e.step (e.after i v) c).isEmpty = true := by
    intro hempty
    rw [acceptOf_of_isEmpty hempty] at haccept
    cases haccept
  have hmet := met_after hstart hexplored v (Or.inr (not_isEmpty_of_step hstep))
  exact (hexplored _ hmet c hstep).selected acc haccept

/-- The number of sets that were met. -/
theorem encard_met (x : Exploration) : {set | x.Met set}.encard = x.sets.size := by
  have hmem : {set | x.Met set} = ↑x.sets.items.toList.toFinset := by
    refine Set.ext fun set => ?_
    rw [List.coe_toFinset]
    refine Iff.trans ?_ List.mem_iff_getElem?.symm
    simp only [Array.getElem?_toList]
    exact Iff.rfl
  rw [hmem, Set.encard_coe_eq_coe_finsetCard, List.toFinset_card_of_nodup x.sets.nodup_items]
  rfl

/-- An exploration begins with the start set. -/
theorem within_start (e : Engine) (i : Nat) (hlimit : 0 < limit) :
    Within { sets := (Interner.empty.intern (e.startSet i)).1, selected := ∅, complete := true }
      e i limit where
  sound := by
    refine ⟨fun set ⟨n, hn⟩ => ?_, fun id hid => absurd hid Std.HashSet.not_mem_empty⟩
    rcases Interner.eq_or_get?_of_intern hn with rfl | hn
    · exact ⟨[], rfl, Or.inl rfl⟩
    · cases hn
  size_le _ := Nat.le_trans (Interner.size_intern_le _ _) hlimit
  lt_size := nofun

/-- An exploration finds no conflict. It is complete exactly when there are no more sets than the
limit, and then it has selected exactly the rules that texts select. -/
theorem exists_explore (h : e.Explorable i) (hlimit : 0 < limit) :
    ∃ x, e.explore limit i = .ok x ∧
      (x.complete = true ↔ ¬(limit : ℕ∞) < (e.Reached i).encard) ∧
      (x.complete = true → ∀ id, id ∈ x.selected ↔ e.Selected i id) := by
  obtain ⟨x, hx, hle, hwithin, hexplored⟩ := exists_exploreFrom h 0 (within_start e i hlimit) rfl
    fun n set hn => absurd hn (Nat.not_lt_zero n)
  have hstart : x.Met (e.startSet i) := ⟨0, hle.sets _ _ (Interner.get?_intern_empty _)⟩
  have hsubset : {set | x.Met set} ⊆ e.Reached i := fun set hset => hwithin.sound.sets set hset
  refine ⟨x, hx, ⟨fun hcomplete => ?_, fun hle => ?_⟩, fun hcomplete id =>
    ⟨hwithin.sound.selected id, mem_selected hstart (hexplored hcomplete)⟩⟩
  · -- Nothing was missed, so the sets that were met are all the sets.
    have hall : e.Reached i = {set | x.Met set} := by
      refine Set.Subset.antisymm ?_ hsubset
      rintro _ ⟨w, rfl, hw⟩
      exact met_after hstart (hexplored hcomplete) w hw
    rw [hall, encard_met, Nat.cast_lt]
    exact Nat.not_lt.2 (hwithin.size_le hcomplete)
  · refine Classical.byContradiction fun hstopped => hle ?_
    have hlt := hwithin.lt_size (Bool.eq_false_iff.2 hstopped)
    calc (limit : ℕ∞)
      _ < x.sets.size := Nat.cast_lt.2 hlt
      _ = {set | x.Met set}.encard := (encard_met x).symm
      _ ≤ (e.Reached i).encard := Set.encard_le_encard hsubset

end Engine

end Lexwright

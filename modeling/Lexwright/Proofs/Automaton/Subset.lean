import Lexwright.Proofs.Automaton.Conflicts
import Lexwright.Proofs.Automaton.Implements
import Lexwright.Proofs.Automaton.Reach
import Lexwright.Proofs.Segments.Partition

/-!
# `Lexwright.Proofs.Automaton.Subset`: sets of states follow all the paths at once

The engine goes from set to set. After a text its set has the important states to which a path
leads that reads the text.

* `Automaton.Separate`: the condition on the moves under which a look-up decides what they read.
* `Engine.mem_step`: what a character does to a set.
* `Automaton.Tracks`: a set has the important states to which a text leads. `Tracks.step` keeps
  it.
* `Automaton.Implements.ordinal_le_iff`: within a lexical state, ordinals compare like the
  numbers of rules.
-/

set_option autoImplicit false

namespace Lexwright

variable {a : Automaton} {lexicon : Lexicon} {i p q : Nat} {c : Char}

namespace Automaton

/-- The segments of a move do not overlap. -/
def Separate (a : Automaton) : Prop :=
  ∀ {q target : Nat} {set : Segments}, a.move? q = some (set, target) →
    Segments.Separate set.toList

/-- The automaton of a lexicon has normalized sets on its moves. -/
theorem Implements.separate (h : a.Implements lexicon) : a.Separate := fun hmove =>
  (h.regular hmove).normal.separate

/-- A move reads what the test of its set admits. -/
theorem Separate.move_iff (h : a.Separate) :
    a.graph.move p c q ↔ ∃ set, a.move? p = some (set, q) ∧ set.contains c.toNat = true := by
  constructor
  · intro ⟨set, hmove, hcovers⟩
    exact ⟨set, hmove, (Segments.contains_iff_covers_of_pairwise (h hmove)).2 hcovers⟩
  · intro ⟨set, hmove, hcontains⟩
    exact ⟨set, hmove, (Segments.contains_iff_covers_of_pairwise (h hmove)).1 hcontains⟩

end Automaton

/-! ### What a character does to a set -/

/-- What a fold adds to a set is what one of its steps adds. -/
theorem mem_foldl_iff {f : StateSet → Nat → StateSet} {G : Nat → Prop}
    (hf : ∀ found p, q ∈ f found p ↔ q ∈ found ∨ G p) (members : List Nat) (found : StateSet) :
    q ∈ members.foldl f found ↔ q ∈ found ∨ ∃ p ∈ members, G p := by
  induction members generalizing found with
  | nil => simp only [List.foldl_nil, List.not_mem_nil, false_and, exists_false, or_false]
  | cons p rest ih =>
    rw [List.foldl_cons, ih, hf]
    simp only [List.mem_cons, exists_eq_or_imp, or_assoc]

/-- The states after a character are the closures of the targets to which it leads. -/
theorem Engine.mem_step (h : a.Separate) {active : StateSet} :
    q ∈ (ofAutomaton a).step active c ↔
      ∃ p ∈ active, ∃ target, a.graph.move p c target ∧ q ∈ a.closure target := by
  unfold step
  refine (mem_foldl_iff (G := fun p => ∃ target, a.graph.move p c target ∧ q ∈ a.closure target)
    (fun found p => ?_) _ _).trans ?_
  · rw [show (ofAutomaton a).automaton.move? p = a.move? p from rfl]
    simp only [h.move_iff]
    cases hmove : a.move? p with
    | none => simp only [reduceCtorEq, false_and, exists_false, or_false]
    | some m =>
      obtain ⟨set, target⟩ := m
      simp only [Option.some.injEq, Prod.mk.injEq]
      by_cases hcontains : set.contains c.toNat = true
      · rw [if_pos hcontains, SortedSet.mem_union, closure_ofAutomaton]
        refine or_congr_right ?_
        constructor
        · intro hq
          exact ⟨target, ⟨set, ⟨rfl, rfl⟩, hcontains⟩, hq⟩
        · rintro ⟨_, ⟨_, ⟨rfl, rfl⟩, _⟩, hq⟩
          exact hq
      · -- The move does not read the character, so nothing is added.
        rw [if_neg hcontains]
        constructor
        · exact Or.inl
        · rintro (hq | ⟨_, ⟨_, ⟨rfl, rfl⟩, hc⟩, _⟩)
          · exact hq
          · exact absurd hc hcontains
  · rw [or_iff_right (SortedSet.not_mem_empty q)]
    exact Iff.rfl

namespace Automaton

/-- The set has the important states to which the text leads. -/
def Tracks (a : Automaton) (start : Nat) (w : List Char) (set : StateSet) : Prop :=
  ∀ q, q ∈ set ↔ a.Important q ∧ a.graph.Path start w q

variable {start : Nat} {w v : List Char} {set : StateSet} {info : LexStateInfo}

/-- The start set holds the states that the empty text reaches. -/
theorem tracks_startSet (hinfo : a.lexStates[i]? = some info) :
    a.Tracks info.start [] ((Engine.ofAutomaton a).startSet i) := by
  intro q
  have hset : (Engine.ofAutomaton a).startSet i = (Engine.ofAutomaton a).closure info.start := by
    unfold Engine.startSet
    rw [show (Engine.ofAutomaton a).automaton.lexStates[i]? = some info from hinfo]
  rw [hset, Engine.closure_ofAutomaton]
  exact mem_closure

/-- A state with a move is important. -/
theorem important_of_move (h : a.graph.move p c q) : a.Important p := by
  obtain ⟨set, hmove, _⟩ := h
  exact Or.inl (by rw [hmove]; rfl)

/-- A state that accepts a rule is important. -/
theorem important_of_accept {acc : Accept} (h : a.accept? q = some acc) : a.Important q :=
  Or.inr (by rw [h]; rfl)

/-- A character is read by moves out of the set, and jumps lead on from there. -/
theorem Tracks.step (h : a.Separate) (hset : a.Tracks start w set) :
    a.Tracks start (w ++ [c]) ((Engine.ofAutomaton a).step set c) := by
  intro q
  rw [Engine.mem_step h, Graph.path_append_iff]
  constructor
  · intro ⟨p, hp, target, hmove, hq⟩
    obtain ⟨himportant, hpath⟩ := mem_closure.1 hq
    exact ⟨himportant, p, ((hset p).1 hp).2, .move hmove hpath⟩
  · intro ⟨himportant, p, hbefore, hpath⟩
    -- The state that moves on the character is reached by the text before it.
    obtain ⟨p', target, hjumps, hmove, hafter⟩ := Graph.path_cons_iff.1 hpath
    have hp' : a.graph.Path start w p' := by
      have := hbefore.trans hjumps
      rwa [List.append_nil] at this
    exact ⟨p', (hset p').2 ⟨important_of_move hmove, hp'⟩, target, hmove,
      mem_closure.2 ⟨himportant, hafter⟩⟩

/-- A path to an important state passes an important state before it reads anything. -/
theorem exists_important (hpath : a.graph.Path p v q) (hq : a.Important q) :
    ∃ p', a.Important p' ∧ a.graph.Path p [] p' := by
  induction hpath with
  | refl p => exact ⟨p, hq, .refl p⟩
  | jump hjump _ ih =>
    obtain ⟨p', himportant, hpath⟩ := ih hq
    exact ⟨p', himportant, .jump hjump hpath⟩
  | move hmove => exact ⟨_, important_of_move hmove, .refl _⟩

/-- Nothing is accepted after a text that leads to no important state. -/
theorem Tracks.not_path_of_isEmpty (hset : a.Tracks start w set) (hempty : set.isEmpty = true)
    (hq : a.Important q) : ¬a.graph.Path start (w ++ v) q := by
  intro hpath
  obtain ⟨p, hbefore, hafter⟩ := Graph.path_append_iff.1 hpath
  -- Where the text ends, jumps lead to an important state, which the set would have.
  obtain ⟨p', himportant, hjumps⟩ := exists_important hafter hq
  have hp' : p' ∈ set := by
    refine (hset p').2 ⟨himportant, ?_⟩
    have := hbefore.trans hjumps
    rwa [List.append_nil] at this
  unfold SortedSet.isEmpty at hempty
  rw [← SortedSet.mem_toList, List.isEmpty_iff.1 hempty] at hp'
  exact List.not_mem_nil hp'

end Automaton

/-! ### The rule that a set accepts -/

/-- The number, if there is one, is the lowest with the property; else no number has it. -/
def Lowest (P : Nat → Prop) : Option Nat → Prop
  | some id => P id ∧ ∀ id', P id' → id ≤ id'
  | none => ∀ id, ¬P id

/-- The lowest number of a kind depends on which numbers are of this kind. -/
theorem Lowest.congr {P Q : Nat → Prop} {r : Option Nat} (h : Lowest P r)
    (heq : ∀ id, P id ↔ Q id) : Lowest Q r := by
  rwa [show Q = P from funext fun id => propext (heq id).symm]

namespace Automaton

/-- A member of the set accepts the rule with this number. -/
def AcceptsRule (a : Automaton) (set : StateSet) (id : Nat) : Prop :=
  ∃ acc, a.Accepts set acc ∧ acc.rule = id

end Automaton

/-! ### Rules of one lexical state -/

namespace Automaton.Implements

variable {acc acc' : Accept} {q' : Nat} {set : StateSet} {w : List Char}

/-- Paths stay in their lexical state. -/
theorem inLexState_of_path (h : a.Implements lexicon) (hp : a.InLexState i p)
    (hpath : a.graph.Path p w q) : a.InLexState i q := by
  induction hpath with
  | refl => exact hp
  | jump hjump _ ih => exact ih (h.closed hp (Or.inr hjump))
  | move hmove _ ih =>
    obtain ⟨set, hset, _⟩ := hmove
    exact ih (h.closed hp (Or.inl ⟨set, hset⟩))

/-- A rule that is accepted in a lexical state belongs to it. -/
theorem exists_rule (h : a.Implements lexicon) (hq : a.InLexState i q)
    (hacc : a.accept? q = some acc) :
    ∃ rule, lexicon.numbered[acc.rule]? = some (i, rule) ∧
      acc = ⟨acc.rule, rule.ordinal, rule.kind⟩ := by
  obtain ⟨info, entry, hinfo, hfragment, s', hs', hstate'⟩ := h.accept hacc
  obtain ⟨s, hs, hstate⟩ := hq
  rw [hs'] at hs
  cases hs
  obtain ⟨rule, hrule⟩ := h.exists_numbered hinfo
  rw [← hstate', hstate] at hrule
  obtain ⟨hexit, -⟩ := h.fragment hrule hinfo hfragment
  rw [hacc] at hexit
  exact ⟨rule, hrule, Option.some.inj hexit⟩

/-- Within a lexical state, ordinals compare like the numbers of rules. -/
theorem ordinal_le_iff (h : a.Implements lexicon) (hq : a.InLexState i q)
    (hacc : a.accept? q = some acc) (hq' : a.InLexState i q') (hacc' : a.accept? q' = some acc') :
    acc.ordinal ≤ acc'.ordinal ↔ acc.rule ≤ acc'.rule := by
  obtain ⟨rule, hrule, heq⟩ := h.exists_rule hq hacc
  obtain ⟨rule', hrule', heq'⟩ := h.exists_rule hq' hacc'
  have hord : acc.ordinal = rule.ordinal := congrArg Accept.ordinal heq
  have hord' : acc'.ordinal = rule'.ordinal := congrArg Accept.ordinal heq'
  rcases Nat.lt_trichotomy acc.rule acc'.rule with hlt | hsame | hlt
  · have := h.ordinal hrule hrule' hlt
    omega
  · rw [hsame, hrule'] at hrule
    cases hrule
    omega
  · have := h.ordinal hrule' hrule hlt
    omega

/-- Within a lexical state, the ordinal of a rule determines it. -/
theorem eq_of_ordinal_eq (h : a.Implements lexicon) (hq : a.InLexState i q)
    (hacc : a.accept? q = some acc) (hq' : a.InLexState i q') (hacc' : a.accept? q' = some acc')
    (hordinal : acc.ordinal = acc'.ordinal) : acc = acc' := by
  have hle := (h.ordinal_le_iff hq hacc hq' hacc').1 (Nat.le_of_eq hordinal)
  have hge := (h.ordinal_le_iff hq' hacc' hq hacc).1 (Nat.le_of_eq hordinal.symm)
  obtain ⟨rule, hrule, heq⟩ := h.exists_rule hq hacc
  obtain ⟨rule', hrule', heq'⟩ := h.exists_rule hq' hacc'
  have hsame := Nat.le_antisymm hle hge
  rw [hsame, hrule'] at hrule
  cases hrule
  rw [heq, heq', hsame]

/-- States of one lexical state accept its lowest rule, without a conflict. -/
theorem exists_acceptOf (h : a.Implements lexicon) (hset : ∀ q ∈ set, a.InLexState i q) :
    ∃ r, (Engine.ofAutomaton a).acceptOf set = .ok r ∧ a.AcceptsLowest set r :=
  Engine.acceptOf_eq fun _ _ ⟨_, hq, hx⟩ ⟨_, hq', hy⟩ =>
    h.eq_of_ordinal_eq (hset _ hq) hx (hset _ hq') hy

/-- Of the rules that states of one lexical state accept, the one of the lowest ordinal has the
lowest number. -/
theorem lowest_of_acceptsLowest (h : a.Implements lexicon)
    (hset : ∀ q ∈ set, a.InLexState i q) {r : Option Accept} (hr : a.AcceptsLowest set r) :
    Lowest (a.AcceptsRule set) (r.map Accept.rule) := by
  cases r with
  | none => exact fun id ⟨acc, hacc, _⟩ => hr acc hacc
  | some acc =>
    obtain ⟨⟨q, hq, hacc⟩, hle⟩ := hr
    refine ⟨⟨acc, ⟨q, hq, hacc⟩, rfl⟩, fun id ⟨acc', ⟨q', hq', hacc'⟩, hid⟩ => ?_⟩
    rw [← hid]
    exact (h.ordinal_le_iff (hset q hq) hacc (hset q' hq') hacc').1 (hle acc' ⟨q', hq', hacc'⟩)

end Automaton.Implements

end Lexwright

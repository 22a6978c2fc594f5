import Lexwright.Automaton.Memo
import Lexwright.Proofs.Automaton.Explore

/-!
# `Lexwright.Proofs.Automaton.Memo`: the table of closures changes no answer

A table is sound if what it has for a state is the closure of that state. Every question, asked of
a sound table, has the answer that it has without a table, and leaves a sound table. Nothing is
assumed of the automaton for that: its jumps can lead in circles, and out of its states.

* `Memo.Sound`: the invariant of the tables.
* `Memo.Answers`: a computation has one answer for all sound tables, and keeps them sound.
* `Memo.answers_closure`, `Memo.answers_step`, `Memo.answers_longestMatch`: the questions.
* `Memo.sound_after`: the tables that questions leave are sound.
* `Memo.mem_read_after`: reading a text, whatever was asked before, gives the important states to
  which paths lead that read it.
-/

set_option autoImplicit false

namespace Lexwright.Memo

variable {a : Automaton} {α β : Type}

/-- What the table has for a state is the closure of the state. -/
structure Sound (a : Automaton) (m : Memo) : Prop where
  automaton : m.automaton = a
  closures : ∀ {q : Nat} {set : StateSet}, m.closures[q]?.join = some set → set = a.closure q

/-- Asked of any sound table, the computation answers `v` and leaves a sound table. -/
def Answers (a : Automaton) (x : StateM Memo α) (v : α) : Prop :=
  ∀ m, Sound a m → (x.run m).1 = v ∧ Sound a (x.run m).2

/-! ### Computations with one answer -/

/-- A value that needs no memory is answered by any memory. -/
theorem Answers.pure (a : Automaton) (v : α) : Answers a (pure v : StateM Memo α) v :=
  fun _ hm => ⟨rfl, hm⟩

/-- Answers follow one another: the memory that the first leaves is sound for the second. -/
theorem Answers.bind {x : StateM Memo α} {f : α → StateM Memo β} {v : α} {u : β}
    (hx : Answers a x v) (hf : Answers a (f v) u) : Answers a (x >>= f) u := by
  intro m hm
  obtain ⟨rfl, hsound⟩ := hx m hm
  exact hf _ hsound

/-- A function of an answer needs no memory. -/
theorem Answers.map {x : StateM Memo α} {v : α} (f : α → β) (hx : Answers a x v) :
    Answers a (f <$> x) (f v) := by
  intro m hm
  obtain ⟨rfl, hsound⟩ := hx m hm
  exact ⟨rfl, hsound⟩

/-- A computation may look at the table, as long as its answer does not depend on it. -/
theorem Answers.get_bind {f : Memo → StateM Memo β} {u : β}
    (hf : ∀ m, Sound a m → Answers a (f m) u) : Answers a (get >>= f) u :=
  fun m hm => hf m hm m hm

/-- Answers to the members of a list follow one another, by induction on the list. -/
theorem Answers.foldlM {f : β → α → StateM Memo β} {g : β → α → β}
    (h : ∀ b x, Answers a (f b x) (g b x)) (xs : List α) (b : β) :
    Answers a (xs.foldlM f b) (xs.foldl g b) := by
  induction xs generalizing b with
  | nil => exact .pure a b
  | cons x rest ih => exact (h b x).bind (ih (g b x))

/-! ### The questions -/

/-- A memory without closures is sound. -/
theorem sound_ofAutomaton (a : Automaton) : Sound a (ofAutomaton a) := by
  refine ⟨rfl, fun {q set} h => ?_⟩
  have hnone : (ofAutomaton a).closures[q]?.join = none := by
    show (Array.replicate a.states.size (none : Option StateSet))[q]?.join = none
    rw [Array.getElem?_replicate]
    split <;> rfl
  rw [hnone] at h
  cases h

/-- A closure that is put into the table is found for its own state only. -/
theorem Sound.put {m : Memo} (hm : Sound a m) (q : Nat) :
    Sound a { m with closures := m.closures.setIfInBounds q (some (a.closure q)) } := by
  refine ⟨hm.automaton, fun {p set} h => ?_⟩
  rw [Array.getElem?_setIfInBounds] at h
  split at h
  · rename_i heq
    subst heq
    split at h
    · exact (Option.some.inj h).symm
    · cases h
  · exact hm.closures h

/-- A closure is looked up or computed, and both give the closure. -/
theorem answers_closure (a : Automaton) (q : Nat) : Answers a (closure q) (a.closure q) := by
  intro m hm
  cases hknown : m.closures[q]?.join with
  | some set =>
    have hrun : (closure q).run m = pure (set, m) := by simp [closure, hknown]
    rw [hrun]
    exact ⟨hm.closures hknown, hm⟩
  | none =>
    have hrun : (closure q).run m = pure (a.closure q,
        { m with closures := m.closures.setIfInBounds q (some (a.closure q)) }) := by
      simp [closure, hknown, hm.automaton]
    rw [hrun]
    exact ⟨rfl, hm.put q⟩

/-- The start set is that of the engine. -/
theorem answers_startSet (a : Automaton) (i : Nat) :
    Answers a (startSet i) ((Engine.ofAutomaton a).startSet i) := by
  refine .get_bind fun m hm => ?_
  unfold Engine.startSet
  rw [hm.automaton, show (Engine.ofAutomaton a).automaton = a from rfl]
  cases a.lexStates[i]? with
  | none => exact .pure a _
  | some info =>
    show Answers a (closure info.start) ((Engine.ofAutomaton a).closure info.start)
    rw [Engine.closure_ofAutomaton]
    exact answers_closure a info.start

/-- A step is that of the engine. -/
theorem answers_step (a : Automaton) (active : StateSet) (c : Char) :
    Answers a (step active c) ((Engine.ofAutomaton a).step active c) := by
  refine .get_bind fun m hm => ?_
  rw [hm.automaton]
  refine .foldlM (fun next q => ?_) _ _
  rw [show (Engine.ofAutomaton a).automaton.move? q = a.move? q from rfl]
  cases a.move? q with
  | none => exact .pure a _
  | some move =>
    obtain ⟨set, target⟩ := move
    by_cases hc : set.contains c.toNat = true
    · simp only [if_pos hc, Engine.closure_ofAutomaton]
      exact .map next.union (answers_closure a target)
    · simp only [if_neg hc]
      exact .pure a _

/-- A text is read as by the engine. -/
theorem answers_read (a : Automaton) (active : StateSet) (w : List Char) :
    Answers a (read active w) (w.foldl (Engine.ofAutomaton a).step active) :=
  .foldlM (answers_step a) w active

/-- A match goes on as that of the engine. -/
theorem answers_matchFrom (a : Automaton) (active : StateSet) (best : Option (Accept × Nat))
    (count : Nat) (w : List Char) :
    Answers a (matchFrom active best count w)
      ((Engine.ofAutomaton a).matchFrom active best count w) := by
  induction w generalizing active best count with
  | nil => exact .pure a _
  | cons c rest ih =>
    unfold matchFrom Engine.matchFrom
    refine (answers_step a active c).bind ?_
    by_cases hempty : ((Engine.ofAutomaton a).step active c).isEmpty = true
    · rw [if_pos hempty, if_pos hempty]
      exact .pure a _
    · rw [if_neg hempty, if_neg hempty]
      -- What a set accepts does not depend on the closures that are stored.
      refine .get_bind fun m hm => ?_
      have haccept : m.acceptOf ((Engine.ofAutomaton a).step active c) =
          (Engine.ofAutomaton a).acceptOf ((Engine.ofAutomaton a).step active c) := by
        unfold acceptOf
        rw [hm.automaton]
        rfl
      rw [haccept]
      cases (Engine.ofAutomaton a).acceptOf ((Engine.ofAutomaton a).step active c) with
      | error conflict => exact .pure a _
      | ok accept =>
        cases accept with
        | none => exact ih _ best (count + 1)
        | some accept => exact ih _ (some (accept, count + 1)) (count + 1)

/-- The longest match is that of the engine. -/
theorem answers_longestMatch (a : Automaton) (i : Nat) (text : String) :
    Answers a (longestMatch i text) ((Engine.ofAutomaton a).longestMatch i text) :=
  (answers_startSet a i).bind (answers_matchFrom a _ none 0 text.toList)

/-! ### Sequences of questions -/

/-- A question to the table. -/
inductive Call where
  | closure (q : Nat)
  | startSet (lexState : Nat)
  | step (active : StateSet) (c : Char)
  | longestMatch (lexState : Nat) (text : String)

/-- Asks the question and forgets the answer. -/
def Call.ask : Call → StateM Memo Unit
  | .closure q => discard (Memo.closure q)
  | .startSet lexState => discard (Memo.startSet lexState)
  | .step active c => discard (Memo.step active c)
  | .longestMatch lexState text => discard (Memo.longestMatch lexState text)

/-- The table that the questions leave, one after the other. -/
def after (a : Automaton) (calls : List Call) : Memo :=
  calls.foldl (fun m call => (call.ask.run m).2) (ofAutomaton a)

/-- A memory stays sound whatever it is asked. -/
theorem Sound.ask {m : Memo} (hm : Sound a m) (call : Call) : Sound a (call.ask.run m).2 := by
  cases call with
  | closure q => exact (answers_closure a q m hm).2
  | startSet lexState => exact (answers_startSet a lexState m hm).2
  | step active c => exact (answers_step a active c m hm).2
  | longestMatch lexState text => exact (answers_longestMatch a lexState text m hm).2

/-- Whatever was asked, the table is sound. -/
theorem sound_after (a : Automaton) (calls : List Call) : Sound a (after a calls) :=
  List.foldlRecOn calls _ (sound_ofAutomaton a) fun _ hm call _ => hm.ask call

/-- The table with the closures that are needed is one that questions leave. -/
theorem computed_eq_after (a : Automaton) :
    computed a = after a ((needed a).map .closure) := by
  unfold computed after
  generalize ofAutomaton a = m
  induction needed a generalizing m with
  | nil => rfl
  | cons q rest ih => exact ih _

/-- However the jumps lead in circles and whatever was asked before: the set that is left after a
text has exactly the important states to which a path leads that reads the text. -/
theorem mem_read_after {i : Nat} {info : LexStateInfo} (h : a.Separate)
    (hinfo : a.lexStates[i]? = some info) (calls : List Call) (w : List Char) (q : Nat) :
    q ∈ ((startSet i >>= fun set => read set w).run (after a calls)).1 ↔
      a.Important q ∧ a.graph.Path info.start w q := by
  have hanswer : Answers a (startSet i >>= fun set => read set w)
      ((Engine.ofAutomaton a).after i w) := (answers_startSet a i).bind (answers_read a _ w)
  rw [(hanswer _ (sound_after a calls)).1]
  exact Engine.tracks_after h hinfo w q

/-- An automaton whose jumps lead in circles through states that no set has: before and after
each `a`, jumps go between two states without a move. -/
def circles : Automaton where
  states := #[
    { lexState := 0, jumps := #[1] },
    { lexState := 0, jumps := #[0, 2] },
    { lexState := 0, move := some (.ofChar 'a', 3) },
    { lexState := 0, jumps := #[0, 4] },
    { lexState := 0, accept := some ⟨0, 1, 1⟩ }]
  lexStates := #[{ name := "main", start := 0, eofRule := none, firstRule := 0, endRule := 1 }]

/-- The moves of the sample have normalized sets. -/
theorem separate_circles : circles.Separate := by
  intro q target set h
  obtain ⟨s, hs, hmove⟩ := Option.bind_eq_some_iff.1 h
  have hset : set = .ofChar 'a' := by
    have hall : ∀ s ∈ circles.states, ∀ move ∈ s.move, move.1 = .ofChar 'a' := by decide
    exact hall s (Array.mem_of_getElem? hs) _ hmove
  rw [hset]
  exact List.pairwise_singleton ..

/-- A jump of the sample is an edge of its graph. -/
theorem jump_circles {p q : Nat} {s : State} (hs : circles.states[p]? = some s)
    (hq : q ∈ s.jumps.toList) : circles.graph.jump p q := ⟨s, hs, Array.mem_toList_iff.1 hq⟩

/-- From the start state an `a` leads to the state before the accepting one. -/
theorem path_circles : circles.graph.Path 0 ['a'] 3 :=
  .jump (jump_circles rfl (by decide : 1 ∈ [1])) <|
    .jump (jump_circles rfl (by decide : 2 ∈ [0, 2])) <|
      .move ⟨_, rfl, (Segments.covers_ofChar 'a').2 rfl⟩ (.refl 3)

/-- After `aa` the set has the accepting state and not the start state, which has no move: also if
other questions were asked before. -/
theorem mem_read_after_circles : circles.Separate ∧
    4 ∈ ((startSet 0 >>= fun set => read set ['a', 'a']).run
      (after circles [.closure 1, .longestMatch 0 "ab"])).1 ∧
    ¬0 ∈ ((startSet 0 >>= fun set => read set ['a', 'a']).run
      (after circles [.closure 1, .longestMatch 0 "ab"])).1 := by
  refine ⟨separate_circles, ?_, fun h => ?_⟩
  · refine (mem_read_after separate_circles rfl _ _ 4).2 ⟨.inr rfl, ?_⟩
    have hback : circles.graph.jump 3 0 := jump_circles rfl (by decide : 0 ∈ [0, 4])
    exact (path_circles.snoc hback).trans
      (path_circles.snoc (jump_circles rfl (by decide : 4 ∈ [0, 4])))
  · obtain ⟨hmove | haccept, -⟩ := (mem_read_after separate_circles rfl _ _ 0).1 h
    · cases hmove
    · cases haccept

end Lexwright.Memo

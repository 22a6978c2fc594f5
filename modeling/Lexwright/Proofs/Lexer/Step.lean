import Lexwright.Lexer.Scan
import Lexwright.Proofs.Compile

/-!
# `Lexwright.Proofs.Lexer.Step`: one character moves a lexer like the engine

* `Marks.Sound`: no stamp is ahead of the generation, so a new generation removes every mark.
* `Touched`: the active states are the marked ones, each listed once.
* `Tables.step_eq`: the states that a step activates, and the lowest rule of their rows, for any
  tables.
* `Tables.Serves.step`: with the tables of an automaton, a step activates the states to which the
  engine goes, and finds the lowest rule that they accept.
-/

set_option autoImplicit false

namespace Lexwright

variable {n p q : Nat}

/-! ### Marks -/

namespace Marks

variable {m : Marks}

/-- There is a stamp for each of `n` states, and none is ahead of the generation. -/
structure Sound (m : Marks) (n : Nat) : Prop where
  size : m.stamps.size = n
  le : ∀ {q : Nat} {stamp : UInt32}, m.stamps[q]? = some stamp → stamp ≤ m.generation

/-- A state is marked where its stamp is the current generation. -/
theorem contains_iff : m.contains q = true ↔ m.stamps[q]? = some m.generation := by
  unfold contains
  exact decide_eq_true_iff

/-- Fresh marks are sound. -/
theorem sound_ofSize (n : Nat) : (ofSize n).Sound n := by
  refine ⟨Array.size_replicate, fun {q stamp} h => ?_⟩
  unfold ofSize at h
  rw [Array.getElem?_replicate] at h
  split at h
  · cases h
    exact UInt32.le_refl _
  · cases h

/-- A new generation is ahead of every stamp: it is larger, or the stamps were cleared. -/
theorem Sound.lt_renew (h : m.Sound n) {stamp : UInt32}
    (hq : m.renew.stamps[q]? = some stamp) : stamp < m.renew.generation := by
  unfold renew at hq ⊢
  split at hq
  · rename_i hzero
    rw [if_pos hzero]
    rw [Array.getElem?_replicate] at hq
    split at hq
    · cases hq
      show (0 : UInt32) < 1
      decide
    · cases hq
  · rename_i hzero
    rw [if_neg hzero]
    -- The generation did not wrap around, so it is one larger than the old one.
    have hle := h.le hq
    rw [UInt32.le_iff_toNat_le] at hle
    rw [UInt32.lt_iff_toNat_lt]
    have hnext : (m.generation + 1).toNat ≠ 0 := fun heq => hzero (UInt32.toNat_inj.1 heq)
    rw [UInt32.toNat_add] at hnext ⊢
    have := m.generation.toNat_lt
    simp only [UInt32.toNat_one] at hnext ⊢
    omega

/-- A new round keeps the marks sound, also where the generations start again. -/
theorem Sound.renew (h : m.Sound n) : m.renew.Sound n := by
  refine ⟨?_, fun {q stamp} hq => UInt32.le_of_lt (h.lt_renew hq)⟩
  unfold Marks.renew
  split
  · exact Array.size_replicate.trans h.size
  · exact h.size

/-- In a new round no state is marked. -/
theorem Sound.contains_renew (h : m.Sound n) : ¬m.renew.contains q = true := by
  intro hq
  exact absurd (h.lt_renew (contains_iff.1 hq)) (UInt32.lt_irrefl _)

/-- Marking a state keeps the marks sound. -/
theorem Sound.insert (h : m.Sound n) : (m.insert q).Sound n := by
  refine ⟨(Array.size_setIfInBounds).trans h.size, fun {p stamp} hp => ?_⟩
  have hp : (m.stamps.setIfInBounds q m.generation)[p]? = some stamp := hp
  rw [Array.getElem?_setIfInBounds] at hp
  split at hp
  · split at hp
    · cases hp
      exact UInt32.le_refl _
    · cases hp
  · exact h.le hp

/-- Marking a state marks that state and no other. -/
theorem Sound.contains_insert (h : m.Sound n) (hq : q < n) :
    (m.insert q).contains p = true ↔ p = q ∨ m.contains p = true := by
  rw [contains_iff, contains_iff]
  show (m.stamps.setIfInBounds q m.generation)[p]? = some m.generation ↔ _
  rw [Array.getElem?_setIfInBounds]
  by_cases heq : q = p
  · subst heq
    rw [if_pos rfl, h.size, if_pos hq]
    exact iff_of_true rfl (Or.inl rfl)
  · rw [if_neg heq, or_iff_right fun h => heq h.symm]

end Marks

/-! ### The states that a step activates -/

/-- The active states are the marked ones, each listed once. -/
structure Touched (n : Nat) (found : Marks × Array Nat) : Prop where
  sound : found.1.Sound n
  nodup : found.2.toList.Nodup
  mem_iff : ∀ q, q ∈ found.2 ↔ found.1.contains q = true

namespace Tables

variable {found : Marks × Array Nat} {t : Tables} {c : Char}

/-- A new round starts without touched states. -/
theorem touched_renew {marks : Marks} (h : marks.Sound n) : Touched n (marks.renew, #[]) :=
  ⟨h.renew, List.nodup_nil, fun _ => iff_of_false (Array.not_mem_empty _) h.contains_renew⟩

/-- A state that is activated is touched, once. -/
theorem touched_activate (h : Touched n found) (hq : q < n) :
    Touched n (activate found q) ∧ ∀ p, p ∈ (activate found q).2 ↔ p ∈ found.2 ∨ p = q := by
  unfold activate
  by_cases hmarked : found.1.contains q = true
  · rw [if_pos hmarked]
    refine ⟨h, fun p => ⟨Or.inl, fun hp => ?_⟩⟩
    rcases hp with hp | rfl
    · exact hp
    · exact (h.mem_iff _).2 hmarked
  · rw [if_neg hmarked]
    have hnew : ¬q ∈ found.2 := fun hq => hmarked ((h.mem_iff q).1 hq)
    refine ⟨⟨h.sound.insert, ?_, fun p => ?_⟩, fun p => Array.mem_push⟩
    · show (found.2.push q).toList.Nodup
      rw [Array.toList_push, List.nodup_append]
      refine ⟨h.nodup, List.pairwise_singleton _ q, fun x hx y hy heq => ?_⟩
      rw [List.mem_singleton.1 hy] at heq
      exact hnew (heq ▸ Array.mem_toList_iff.1 hx)
    · show p ∈ found.2.push q ↔ _
      rw [Array.mem_push, h.sound.contains_insert hq, h.mem_iff]
      exact Or.comm

/-- A row adds its members. -/
theorem touched_foldl_activate (h : Touched n found) (members : List Nat)
    (hmembers : ∀ q ∈ members, q < n) :
    Touched n (members.foldl activate found) ∧
      ∀ p, p ∈ (members.foldl activate found).2 ↔ p ∈ found.2 ∨ p ∈ members := by
  induction members generalizing found with
  | nil => exact ⟨h, fun p => (or_iff_left List.not_mem_nil).symm⟩
  | cons q rest ih =>
    obtain ⟨hone, hmem⟩ := touched_activate h (hmembers q List.mem_cons_self)
    obtain ⟨hall, hrest⟩ := ih hone fun p hp => hmembers p (List.mem_cons_of_mem _ hp)
    refine ⟨hall, fun p => (hrest p).trans ?_⟩
    rw [hmem, List.mem_cons, or_assoc]

/-- The lower of two lowest numbers is the lowest of both properties. -/
theorem lowest_lowerRule {P Q : Nat → Prop} {r r' : Option Nat} (h : Lowest P r)
    (h' : Lowest Q r') : Lowest (fun id => P id ∨ Q id) (lowerRule r r') := by
  cases r with
  | none =>
    cases r' with
    | none => exact fun id hid => hid.elim (h id) (h' id)
    | some b => exact ⟨Or.inr h'.1, fun id hid => hid.elim (fun hp => absurd hp (h id)) (h'.2 id)⟩
  | some a =>
    cases r' with
    | none => exact ⟨Or.inl h.1, fun id hid => hid.elim (h.2 id) (fun hq => absurd hq (h' id))⟩
    | some b =>
      show (P (min a b) ∨ Q (min a b)) ∧ ∀ id, P id ∨ Q id → min a b ≤ id
      refine ⟨?_, fun id hid => ?_⟩
      · rcases Nat.le_total a b with hle | hle
        · rw [Nat.min_eq_left hle]
          exact Or.inl h.1
        · rw [Nat.min_eq_right hle]
          exact Or.inr h'.1
      · rcases hid with hid | hid
        · have := h.2 id hid
          omega
        · have := h'.2 id hid
          omega

/-- Going through active states, with what the earlier ones gave: each adds the row to which it
leads. `Q r` is the property whose lowest number is the rule of row `r`. -/
theorem foldl_stepState (hfits : ∀ {r q : Nat}, q ∈ t.row r → q < n) {Q : Nat → Nat → Prop}
    (members : List Nat) (found : (Marks × Array Nat) × Option Nat) (P : Nat → Prop)
    (htouched : Touched n found.1) (hlowest : Lowest P found.2)
    (hrule : ∀ p ∈ members, ∀ r, t.target? p c = some r → Lowest (Q r) (t.rowRule r)) :
    Touched n (members.foldl (t.stepState c) found).1 ∧
      (∀ q, q ∈ (members.foldl (t.stepState c) found).1.2 ↔
        q ∈ found.1.2 ∨ ∃ p ∈ members, ∃ r, t.target? p c = some r ∧ q ∈ t.row r) ∧
      Lowest (fun id => P id ∨ ∃ p ∈ members, ∃ r, t.target? p c = some r ∧ Q r id)
        (members.foldl (t.stepState c) found).2 := by
  induction members generalizing found P with
  | nil =>
    simp only [List.foldl_nil, List.not_mem_nil, false_and, exists_false, or_false]
    exact ⟨htouched, fun q => trivial, hlowest⟩
  | cons p rest ih =>
    have hrest := fun p' hp' => hrule p' (List.mem_cons_of_mem _ hp')
    rw [List.foldl_cons]
    simp only [List.mem_cons, exists_eq_or_imp]
    cases htarget : t.target? p c with
    | none =>
      -- The state does not move on the character.
      have hsame : t.stepState c found p = found := by
        unfold stepState
        rw [htarget]
      rw [hsame]
      simp only [reduceCtorEq, false_and, exists_false, false_or]
      exact ih found P htouched hlowest hrest
    | some r =>
      have hstep : t.stepState c found p =
          ((t.row r).toList.foldl activate found.1, lowerRule found.2 (t.rowRule r)) := by
        unfold stepState
        rw [htarget, Array.foldl_toList]
      obtain ⟨hrow, hmem⟩ := touched_foldl_activate htouched (t.row r).toList
        fun q hq => hfits (Array.mem_toList_iff.1 hq)
      obtain ⟨hall, hmems, hlow⟩ := ih (t.stepState c found p) (fun id => P id ∨ Q r id)
        (by rw [hstep]; exact hrow)
        (by rw [hstep]; exact lowest_lowerRule hlowest (hrule p List.mem_cons_self r htarget))
        hrest
      refine ⟨hall, fun q => (hmems q).trans ?_, ?_⟩
      · rw [hstep]
        simp only [hmem, Array.mem_toList_iff, Option.some.injEq, exists_eq_left', or_assoc]
      · simp only [Option.some.injEq, exists_eq_left', ← or_assoc]
        exact hlow

/-- The states that a step activates are those of the rows to which active states lead, and its
rule is the lowest of these rows. -/
theorem step_eq (hfits : ∀ {r q : Nat}, q ∈ t.row r → q < n) {marks : Marks} (h : marks.Sound n)
    (active : Array Nat) {Q : Nat → Nat → Prop}
    (hrule : ∀ p ∈ active, ∀ r, t.target? p c = some r → Lowest (Q r) (t.rowRule r)) :
    Touched n (t.step marks active c).1 ∧
      (∀ q, q ∈ (t.step marks active c).1.2 ↔
        ∃ p ∈ active, ∃ r, t.target? p c = some r ∧ q ∈ t.row r) ∧
      Lowest (fun id => ∃ p ∈ active, ∃ r, t.target? p c = some r ∧ Q r id)
        (t.step marks active c).2 := by
  obtain ⟨htouched, hmem, hlowest⟩ := foldl_stepState hfits active.toList
    ((marks.renew, #[]), none) (fun _ => False) (touched_renew h) (fun _ h => h) fun p hp =>
      hrule p (Array.mem_toList_iff.1 hp)
  unfold step
  rw [← Array.foldl_toList]
  refine ⟨htouched, fun q => (hmem q).trans ?_, ?_⟩
  · rw [or_iff_right (Array.not_mem_empty q)]
    simp only [Array.mem_toList_iff]
  · simp only [false_or, Array.mem_toList_iff] at hlowest
    exact hlowest

/-! ### The tables of an automaton -/

variable {a : Automaton} {lexicon : Lexicon} {i r : Nat} {active : Array Nat} {set : StateSet}

/-- A row that stands for a set has its states. -/
theorem IsRow.mem_iff (h : t.IsRow a r set) : q ∈ t.row r ↔ q ∈ set := by
  rw [← Array.mem_toList_iff, h.1]
  exact SortedSet.mem_toList

/-- A state leads to the closure of the target of its move. -/
theorem Serves.exists_row (ht : t.Serves a) (hp : ∃ r, p ∈ t.row r)
    (htarget : t.target? p c = some r) :
    ∃ target, a.graph.move p c target ∧ t.IsRow a r (a.closure target) := by
  obtain ⟨r', hp⟩ := hp
  obtain ⟨target, hmove⟩ := ht.move hp htarget
  obtain ⟨next, hnext, hrow⟩ := ht.target hp hmove
  rw [htarget] at hnext
  cases hnext
  exact ⟨target, hmove, hrow⟩

/-- A member of the row accepts the rule with this number. -/
def RowAccepts (t : Tables) (a : Automaton) (r id : Nat) : Prop :=
  ∃ q ∈ t.row r, ∃ acc, a.accept? q = some acc ∧ acc.rule = id

/-- The rule of a row is the lowest that its members accept. -/
theorem IsRow.lowest (h : a.Implements lexicon) (hrow : t.IsRow a r set)
    (hset : ∀ q ∈ set, a.InLexState i q) : Lowest (t.RowAccepts a r) (t.rowRule r) := by
  obtain ⟨acc', hacc', hlowest⟩ := h.exists_acceptOf hset
  have hmem := fun q => hrow.mem_iff (q := q)
  obtain ⟨-, acc, hacc, hrule⟩ := hrow
  rw [hacc] at hacc'
  cases hacc'
  rw [hrule]
  refine (h.lowest_of_acceptsLowest hset hlowest).congr fun id => ?_
  constructor
  · intro ⟨acc, ⟨q, hq, hacc⟩, hid⟩
    exact ⟨q, (hmem q).2 hq, acc, hacc, hid⟩
  · intro ⟨q, hq, acc, hacc, hid⟩
    exact ⟨acc, ⟨q, (hmem q).1 hq, hacc⟩, hid⟩

/-- The active states are members of rows. Those with a move are those of the set. -/
structure Follows (t : Tables) (a : Automaton) (active : Array Nat) (set : StateSet) : Prop where
  rows : ∀ q ∈ active, ∃ r, q ∈ t.row r
  mem_iff : ∀ q, (a.move? q).isSome → (q ∈ active ↔ q ∈ set)

/-- The states that are active when a lexical state begins. -/
theorem Serves.follows_start (ht : t.Serves a) {info : LexStateInfo}
    (hinfo : a.lexStates[i]? = some info) :
    ∃ entry, t.lexStates[i]? = some entry ∧ entry.eofRule = info.eofRule ∧
      t.Follows a ((entry.startRow.map t.row).getD #[]) (a.closure info.start) := by
  obtain ⟨entry, hentry, heof, hstart⟩ := ht.entry hinfo
  refine ⟨entry, hentry, heof, ?_⟩
  cases hrow : entry.startRow with
  | none =>
    rw [hrow] at hstart
    -- The lexical state has no rows: no state of its start set has a move.
    refine ⟨fun q hq => absurd hq (Array.not_mem_empty q), fun q hmove => ?_⟩
    refine iff_of_false (Array.not_mem_empty q) fun hq => ?_
    rw [hstart q hq] at hmove
    cases hmove
  | some r =>
    rw [hrow] at hstart
    exact ⟨fun q hq => ⟨r, hq⟩, fun q _ => hstart.mem_iff⟩

/-- A step activates the states to which the engine goes, and its rule is the lowest that they
accept. -/
theorem Serves.step (ht : t.Serves a) (h : a.Implements lexicon) {marks : Marks}
    (hmarks : marks.Sound t.transitions.size) (hactive : t.Follows a active set)
    (hset : ∀ q ∈ set, a.InLexState i q) (c : Char) :
    Touched t.transitions.size (t.step marks active c).1 ∧
      (∀ q, q ∈ (t.step marks active c).1.2 ↔ q ∈ (Engine.ofAutomaton a).step set c) ∧
      t.Follows a (t.step marks active c).1.2 ((Engine.ofAutomaton a).step set c) ∧
      Lowest (a.AcceptsRule ((Engine.ofAutomaton a).step set c)) (t.step marks active c).2 := by
  -- States without a move may be active in one and not in the other, but they do not matter.
  have hmoves : ∀ {p target : Nat}, a.graph.move p c target → (p ∈ active ↔ p ∈ set) := by
    intro p target ⟨move, hmove, _⟩
    exact hactive.mem_iff p (by rw [hmove]; rfl)
  -- A row to which an active state leads holds states of the same lexical state.
  have hrow : ∀ p ∈ active, ∀ r, t.target? p c = some r → ∃ target, p ∈ set ∧
      a.graph.move p c target ∧ t.IsRow a r (a.closure target) ∧
      ∀ q ∈ a.closure target, a.InLexState i q := by
    intro p hp r htarget
    obtain ⟨target, hmove, hrow⟩ := ht.exists_row (hactive.rows p hp) htarget
    have hpset := (hmoves hmove).1 hp
    have hin : a.InLexState i target := by
      obtain ⟨move, hset', _⟩ := hmove
      exact h.closed (hset p hpset) (Or.inl ⟨move, hset'⟩)
    exact ⟨target, hpset, hmove, hrow, fun q hq => h.inLexState_of_mem_closure hin hq⟩
  obtain ⟨htouched, hmem, hlowest⟩ := @step_eq _ t c ht.fits marks hmarks active
    (t.RowAccepts a) fun p hp r htarget => by
      obtain ⟨target, _, _, hisRow, hin⟩ := hrow p hp r htarget
      exact hisRow.lowest h hin
  have hnext : ∀ q, q ∈ (t.step marks active c).1.2 ↔ q ∈ (Engine.ofAutomaton a).step set c := by
    intro q
    rw [hmem, Engine.mem_step h.separate]
    constructor
    · intro ⟨p, hp, r, htarget, hq⟩
      obtain ⟨target, hpset, hmove, hisRow, _⟩ := hrow p hp r htarget
      exact ⟨p, hpset, target, hmove, hisRow.mem_iff.1 hq⟩
    · intro ⟨p, hpset, target, hmove, hq⟩
      have hp := (hmoves hmove).2 hpset
      obtain ⟨r', hr'⟩ := hactive.rows p hp
      obtain ⟨next, hnext, hisRow⟩ := ht.target hr' hmove
      exact ⟨p, hp, next, hnext, hisRow.mem_iff.2 hq⟩
  refine ⟨htouched, hnext, ⟨fun q hq => ?_, fun q _ => hnext q⟩, hlowest.congr fun id => ?_⟩
  · obtain ⟨p, _, r, _, hq⟩ := (hmem q).1 hq
    exact ⟨r, hq⟩
  · constructor
    · intro ⟨p, hp, r, htarget, q, hq, acc, hacc, hid⟩
      exact ⟨acc, ⟨q, (hnext q).1 ((hmem q).2 ⟨p, hp, r, htarget, hq⟩), hacc⟩, hid⟩
    · intro ⟨acc, ⟨q, hq, hacc⟩, hid⟩
      obtain ⟨p, hp, r, htarget, hq⟩ := (hmem q).1 ((hnext q).2 hq)
      exact ⟨p, hp, r, htarget, q, hq, acc, hacc, hid⟩

end Tables

end Lexwright

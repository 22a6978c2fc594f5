import Lexwright.Proofs.Automaton.Block
import Lexwright.Proofs.Automaton.Errors
import Lexwright.Proofs.Lexicon.Labels

/-!
# `Lexwright.Proofs.Automaton.Layout`: where the automaton keeps the rules of a lexicon

The lexical states are laid out one after another, and nothing that is laid out later touches an
earlier one (`Placed.mono`).

* `Automaton.Placed`: what the automaton holds of one lexical state.
* `Automaton.Laid`: what it holds of the lexical states laid out so far. `laid_addState` is the
  step, `laid_addStates` the run.
* `Lexicon.numbered`: the rules of a lexicon in the order of their numbers.
-/

set_option autoImplicit false

namespace Lexwright

/-- What the automaton keeps of a rule. -/
def RuleInfo.ofRule (lexState : Nat) (r : ResolvedRule) (fragment : Option (Nat × Nat)) :
    RuleInfo where
  lexState
  ordinal := r.rule.ordinal
  kind := r.rule.kind
  category := r.rule.category
  nextState := r.nextState
  name := r.name
  pos := r.pos
  fragment
  isEof := r.isEof

namespace Automaton

/-- The automaton holds lexical state number `i`, whose rules are resolved and laid out in the
block behind its start state. -/
structure Placed (a : Automaton) (i : Nat) (info : LexStateInfo) (b : Block)
    (rs : List ResolvedRule) : Prop where
  entry : a.lexStates[i]? = some info
  lays : b.Lays info.start info.firstRule (info.start + 1) rs
  inRange : info.start + b.size < a.states.size
  states : ∀ p s, info.start ≤ p → p ≤ info.start + b.size → a.states[p]? = some s →
    b.IsState i p s
  rules : ∀ (j : Nat) (r : ResolvedRule) (fragment : Option (Nat × Nat)), rs[j]? = some r →
    b.fragments[j]? = some fragment →
      a.rules[info.firstRule + j]? = some (RuleInfo.ofRule i r fragment)
  eofRule : info.eofRule = (rs.findIdx? ResolvedRule.isEof).map (info.firstRule + ·)
  endRule : info.endRule = info.firstRule + rs.length

variable {a a' : Automaton} {i : Nat} {info : LexStateInfo} {b : Block} {rs : List ResolvedRule}

/-- What is laid out later leaves a lexical state alone. -/
theorem Placed.mono (h : a.Placed i info b rs) {states : Array State}
    {lexStates : Array LexStateInfo} {rules : Array RuleInfo}
    (hstates : a'.states = a.states ++ states)
    (hlexStates : a'.lexStates = a.lexStates ++ lexStates)
    (hrules : a'.rules = a.rules ++ rules) : a'.Placed i info b rs where
  entry := by
    rw [hlexStates, Array.getElem?_append_left (Array.getElem?_eq_some_iff.1 h.entry).1]
    exact h.entry
  lays := h.lays
  inRange := by
    have := h.inRange
    rw [hstates, Array.size_append]
    omega
  states p s hlow hhigh hs := by
    have := h.inRange
    rw [hstates, Array.getElem?_append_left (by omega)] at hs
    exact h.states p s hlow hhigh hs
  rules j r fragment hr hfragment := by
    have := h.rules j r fragment hr hfragment
    rw [hrules, Array.getElem?_append_left (Array.getElem?_eq_some_iff.1 this).1]
    exact this
  eofRule := h.eofRule
  endRule := h.endRule

/-- The number of the first rule of a lexical state. -/
def firstRuleOf (states : List LexState) (i : Nat) : Nat :=
  ((states.take i).flatMap fun s => s.rules).length

/-- What the automaton holds of the lexical states laid out so far. -/
structure Laid (env : Environment) (a : Automaton) (done : List LexState) : Prop where
  lexStates : a.lexStates.size = done.length
  names : a.lexStates.toList.map LexStateInfo.name = done.map LexState.name
  rules : a.rules.size = firstRuleOf done done.length
  placed : ∀ i state, done[i]? = some state → ∃ info b,
    a.Placed i info b (Builder.rulesOf env i state) ∧ info.firstRule = firstRuleOf done i
  covered : ∀ p, p < a.states.size → ∃ i state info b, done[i]? = some state ∧
    a.Placed i info b (Builder.rulesOf env i state) ∧ info.start ≤ p ∧ p ≤ info.start + b.size

/-- Without lexical states nothing is laid out. -/
theorem laid_empty (env : Environment) : Laid env {} [] where
  lexStates := rfl
  names := rfl
  rules := rfl
  placed _ _ h := nomatch h
  covered _ hp := absurd hp (Nat.not_lt_zero _)

/-- The first rule of a lexical state depends on the lexical states before it. -/
theorem firstRuleOf_append {states later : List LexState} {i : Nat} (h : i ≤ states.length) :
    firstRuleOf (states ++ later) i = firstRuleOf states i := by
  unfold firstRuleOf
  rw [List.take_append_of_le_length h]

/-- One more lexical state adds its rules to the count. -/
theorem firstRuleOf_length_append (states : List LexState) (state : LexState) :
    firstRuleOf (states ++ [state]) (states ++ [state]).length =
      firstRuleOf states states.length + state.rules.length := by
  unfold firstRuleOf
  rw [List.take_length, List.take_length, List.flatMap_append, List.length_append,
    List.flatMap_singleton]

/-- The states of the block of a lexical state. -/
theorem isState_ofLexState {start firstRule j : Nat} {s : State}
    (h : (Block.ofRules start firstRule (start + 1) rs).Lays start firstRule (start + 1) rs)
    (hs : ((Block.ofLexState start firstRule rs).states i start)[j]? = some s) :
    (Block.ofRules start firstRule (start + 1) rs).IsState i (start + j) s := by
  have hstate : (Block.ofLexState start firstRule rs).IsState i (start + j) s := by
    refine Block.isState_states (fun e he => ?_) (fun e he => ?_) (fun x hx => ?_) h.nodup
      h.acceptNodup hs
    · have := (h.move e he).1
      omega
    · have := (h.jump e he).1
      omega
    · have := h.accept x hx
      omega
  exact ⟨hstate.lexState, hstate.move, hstate.jump, hstate.accept⟩

/-! ### One more lexical state -/

/-- The automaton with one more lexical state, which has the given rules. -/
def addRules (a : Automaton) (name : String) (rules : List ResolvedRule) : Automaton :=
  let block := Block.ofLexState a.states.size a.rules.size rules
  { states := a.states ++ block.states a.lexStates.size a.states.size
    lexStates := a.lexStates.push
      { name, start := a.states.size
        eofRule := (rules.findIdx? ResolvedRule.isEof).map (a.rules.size + ·)
        firstRule := a.rules.size, endRule := a.rules.size + rules.length }
    rules := a.rules ++
      (List.zipWith (RuleInfo.ofRule a.lexStates.size) rules block.fragments).toArray }

variable {name : String}

/-- The rules of a lexical state are added, each once. -/
theorem size_rules_addRules : (a.addRules name rs).rules.size = a.rules.size + rs.length := by
  unfold addRules Block.ofLexState
  simp [Block.length_fragments_ofRules]

/-- A block stays where it is while lexical states are added behind it. -/
theorem Placed.addRules (h : a.Placed i info b rs) (name : String) (later : List ResolvedRule) :
    (a.addRules name later).Placed i info b rs :=
  h.mono rfl Array.append_singleton.symm rfl

/-- The new lexical state is placed behind the old ones, at their numbers. -/
theorem exists_placed_addRules (a : Automaton) (name : String)
    (hrs : ∀ r ∈ rs, ∀ p, r.pattern = some p → p.WellFormed) :
    ∃ info b, (a.addRules name rs).Placed a.lexStates.size info b rs ∧
      info.start = a.states.size ∧ info.firstRule = a.rules.size ∧
      (a.addRules name rs).states.size = a.states.size + (b.size + 1) := by
  have hlays : (Block.ofRules a.states.size a.rules.size (a.states.size + 1) rs).Lays
      a.states.size a.rules.size (a.states.size + 1) rs :=
    Block.lays_ofRules (Nat.lt_succ_self _) hrs
  have hsize : (a.addRules name rs).states.size = a.states.size +
      ((Block.ofRules a.states.size a.rules.size (a.states.size + 1) rs).size + 1) := by
    rw [Automaton.addRules, Array.size_append, Block.size_states]
    rfl
  refine ⟨_, _, {
    entry := Array.getElem?_push_size, lays := hlays, inRange := ?_
    states := fun p s hlow hhigh hs => ?_, rules := fun j r fragment hr hfragment => ?_
    eofRule := rfl, endRule := rfl }, rfl, rfl, hsize⟩
  · rw [hsize]
    exact Nat.lt_succ_self _
  · -- The new states and the new rules follow those that were there.
    obtain ⟨j, rfl⟩ : ∃ j, p = a.states.size + j := Nat.exists_eq_add_of_le hlow
    rw [Automaton.addRules, Array.getElem?_append_right (Nat.le_add_right _ j),
      Nat.add_sub_cancel_left] at hs
    exact isState_ofLexState hlays hs
  · show (a.addRules name rs).rules[a.rules.size + j]? = _
    rw [Automaton.addRules, Array.getElem?_append_right (Nat.le_add_right _ j),
      Nat.add_sub_cancel_left, List.getElem?_toArray, List.getElem?_zipWith]
    simp only [Block.ofLexState, hr, hfragment]

end Automaton

namespace Builder

open Automaton

/-- Every pattern of the rules is well-formed. -/
def WellFormed (rs : List ResolvedRule) : Prop :=
  ∀ r ∈ rs, ∀ p, r.pattern = some p → p.WellFormed

variable {b : Builder} {done : List LexState}

/-- The lexical state that is laid out next. -/
theorem automaton_addState (b : Builder) (index : Nat) (state : LexState) :
    (b.addState index state).1.automaton =
      b.automaton.addRules state.name (rulesOf b.env index state) := rfl

/-- Laying out one more lexical state. -/
theorem laid_addState (h : Laid b.env b.automaton done) (state : LexState)
    (hrules : WellFormed (rulesOf b.env done.length state)) :
    Laid b.env (b.addState done.length state).1.automaton (done ++ [state]) := by
  have hlength : (rulesOf b.env done.length state).length = state.rules.length :=
    length_resolveRules ..
  obtain ⟨info, block, hnew, hstart, hfirst, hsize⟩ :=
    exists_placed_addRules b.automaton state.name hrules
  rw [automaton_addState]
  rw [h.lexStates] at hnew
  refine {
    lexStates := ?_, names := ?_, rules := ?_
    placed := fun i s hs => ?_, covered := fun p hp => ?_ }
  · rw [List.length_append, ← h.lexStates]
    exact Array.size_push _
  · rw [List.map_append, ← h.names, addRules, Array.toList_push, List.map_append]
    rfl
  · rw [size_rules_addRules, firstRuleOf_length_append, ← h.rules, hlength]
  · -- A lexical state was there before, or it is the new one.
    by_cases hi : i < done.length
    · rw [List.getElem?_append_left hi] at hs
      obtain ⟨info', block', hplaced, hfirst'⟩ := h.placed i s hs
      exact ⟨info', block', hplaced.addRules _ _,
        by rw [hfirst', firstRuleOf_append (Nat.le_of_lt hi)]⟩
    · rw [List.getElem?_append_right (Nat.le_of_not_lt hi)] at hs
      obtain ⟨hi', hs⟩ := List.getElem?_eq_some_iff.1 hs
      have hi : i = done.length := by
        simp only [List.length_cons, List.length_nil] at hi'
        omega
      subst hi
      have hs : state = s := by simpa using hs
      subst hs
      refine ⟨info, block, hnew, ?_⟩
      rw [firstRuleOf_append (Nat.le_refl _), hfirst, h.rules]
  · -- A state of the automaton was there before, or it belongs to the new block.
    by_cases hlt : p < b.automaton.states.size
    · obtain ⟨i, s, info', block', hs, hplaced, hlow, hhigh⟩ := h.covered p hlt
      refine ⟨i, s, info', block', ?_, hplaced.addRules _ _, hlow, hhigh⟩
      rw [List.getElem?_append_left (List.getElem?_eq_some_iff.1 hs).1]
      exact hs
    · refine ⟨done.length, state, info, block, ?_, hnew, ?_, ?_⟩
      · rw [List.getElem?_append_right (Nat.le_refl _), Nat.sub_self]
        rfl
      · omega
      · omega

/-- Laying out lexical states one after another. -/
theorem laid_addStates (h : Laid b.env b.automaton done) {states : List LexState}
    (hrules : ∀ j state, states[j]? = some state →
      WellFormed (rulesOf b.env (done.length + j) state)) :
    Laid b.env (b.addStates (states.zipIdx done.length)).automaton (done ++ states) := by
  -- The numbers go on from those laid out before, and the environment stays the same.
  induction states generalizing b done with
  | nil =>
    rw [List.append_nil]
    exact h
  | cons state states ih =>
    have hstep : Laid (b.addState done.length state).1.env
        (b.addState done.length state).1.automaton (done ++ [state]) :=
      laid_addState h state (hrules 0 state rfl)
    have hlength : (done ++ [state]).length = done.length + 1 := by simp
    have hrest := ih hstep
      fun j s hs => by
        rw [hlength, show done.length + 1 + j = done.length + (j + 1) by omega]
        exact hrules (j + 1) s hs
    rw [List.append_assoc, hlength] at hrest
    exact hrest

end Builder

/-! ### The rules of a lexicon by number -/

namespace Lexicon

/-- The rules of a lexicon in the order of their numbers, each with the number of its lexical
state. -/
def numbered (lexicon : Lexicon) : List (Nat × Rule) :=
  lexicon.states.zipIdx.flatMap fun s => s.1.rules.map fun rule => (s.2, rule)

/-- The rules of the first lexical state come before those of the others. -/
theorem firstRuleOf_cons (s : LexState) (states : List LexState) (i : Nat) :
    Automaton.firstRuleOf (s :: states) (i + 1) =
      s.rules.length + Automaton.firstRuleOf states i := by
  unfold Automaton.firstRuleOf
  rw [List.take_succ_cons, List.flatMap_cons, List.length_append]

/-- A rule has the number of the first rule of its lexical state and the rules before it there. The
induction is on the lexical states. -/
theorem getElem?_numberedFrom {states : List LexState} {k i : Nat} {state : LexState}
    (hstate : states[i]? = some state) {j : Nat} (hj : j < state.rules.length) :
    ((states.zipIdx k).flatMap fun s => s.1.rules.map fun rule => (s.2, rule))[
        Automaton.firstRuleOf states i + j]? =
      state.rules[j]?.map fun rule => (k + i, rule) := by
  induction states generalizing k i with
  | nil => cases hstate
  | cons s states ih =>
    rw [List.zipIdx_cons, List.flatMap_cons]
    cases i with
    | zero =>
      cases hstate
      rw [show Automaton.firstRuleOf (state :: states) 0 = 0 from rfl, Nat.zero_add,
        List.getElem?_append_left (by simpa using hj), List.getElem?_map]
      rfl
    | succ i =>
      rw [firstRuleOf_cons, Nat.add_assoc, List.getElem?_append_right (by simp), List.length_map,
        Nat.add_sub_cancel_left, ih hstate, Nat.add_right_comm, Nat.add_assoc]

/-- The rules of a lexical state are numbered from its first rule on. -/
theorem getElem?_numbered {lexicon : Lexicon} {i j : Nat} {state : LexState}
    (hstate : lexicon.states[i]? = some state) (hj : j < state.rules.length) :
    lexicon.numbered[Automaton.firstRuleOf lexicon.states i + j]? =
      state.rules[j]?.map fun rule => (i, rule) := by
  have := getElem?_numberedFrom (k := 0) hstate hj
  rw [Nat.zero_add] at this
  exact this

/-- Every numbered rule is a rule of one of the lexical states. -/
theorem exists_of_numberedFrom {states : List LexState} {k id i : Nat} {rule : Rule}
    (h : ((states.zipIdx k).flatMap fun s => s.1.rules.map fun rule => (s.2, rule))[id]? =
      some (i, rule)) :
    ∃ i' j state, i = k + i' ∧ states[i']? = some state ∧ state.rules[j]? = some rule ∧
      id = Automaton.firstRuleOf states i' + j := by
  induction states generalizing k id with
  | nil => cases h
  | cons s states ih =>
    rw [List.zipIdx_cons, List.flatMap_cons] at h
    by_cases hid : id < s.rules.length
    · rw [List.getElem?_append_left (by simpa using hid), List.getElem?_map,
        Option.map_eq_some_iff] at h
      obtain ⟨rule', hrule, heq⟩ := h
      cases heq
      exact ⟨0, id, s, rfl, rfl, hrule, (Nat.zero_add id).symm⟩
    · rw [List.getElem?_append_right (by simpa using hid), List.length_map] at h
      obtain ⟨i', j, state, rfl, hstate, hrule, hid'⟩ := ih h
      refine ⟨i' + 1, j, state, by omega, hstate, hrule, ?_⟩
      simp only at hid'
      rw [firstRuleOf_cons]
      omega

/-- Every numbered rule is a rule of its lexical state. -/
theorem exists_of_numbered {lexicon : Lexicon} {id i : Nat} {rule : Rule}
    (h : lexicon.numbered[id]? = some (i, rule)) :
    ∃ j state, lexicon.states[i]? = some state ∧ state.rules[j]? = some rule ∧
      id = Automaton.firstRuleOf lexicon.states i + j := by
  obtain ⟨i', j, state, hi, hstate, hrule, hid⟩ := exists_of_numberedFrom h
  rw [Nat.zero_add] at hi
  subst hi
  exact ⟨j, state, hstate, hrule, hid⟩

/-- There are as many numbers as rules. -/
theorem length_numberedFrom (states : List LexState) (k : Nat) :
    ((states.zipIdx k).flatMap fun s => s.1.rules.map fun rule => (s.2, rule)).length =
      Automaton.firstRuleOf states states.length := by
  induction states generalizing k with
  | nil => rfl
  | cons s states ih =>
    rw [List.zipIdx_cons, List.flatMap_cons, List.length_append, List.length_map, ih]
    exact (firstRuleOf_cons s states _).symm

/-- There are as many numbers as rules in the lexicon. -/
theorem length_numbered (lexicon : Lexicon) :
    lexicon.numbered.length = Automaton.firstRuleOf lexicon.states lexicon.states.length :=
  length_numberedFrom lexicon.states 0

end Lexicon

end Lexwright

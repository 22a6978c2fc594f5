import Lexwright.Proofs.Automaton.Renaming

/-!
# `Lexwright.Proofs.Automaton.Renumbering`: an automaton without one of its rules

A rule without a fragment takes a number, and nothing else of the automaton. Without the rule the
later numbers move up by one, and the states stay where they are.

* `closeGap`: the numbers without one of them.
* `Automaton.withoutRule`: the automaton that is left.
* `Automaton.addRules_withoutRule`: one more lexical state that does not have the rule.
* `Automaton.addRules_eraseIdx`: one more lexical state that has the rule.
* `Automaton.foldl_addRules_modify`: all the lexical states, of which one has the rule.
* `Rows.ofEngine_withoutRule`: the rows of the automaton that is left.
-/

set_option autoImplicit false

namespace Lexwright

/-- The number that `n` gets when number `id` is taken away. -/
def closeGap (id n : Nat) : Nat := if id < n then n - 1 else n

/-- Numbers behind the gap move down by one. -/
theorem closeGap_of_lt {id n : Nat} (h : id < n) : closeGap id n = n - 1 := if_pos h

/-- Numbers up to the gap stay. -/
theorem closeGap_of_le {id n : Nat} (h : n ≤ id) : closeGap id n = n :=
  if_neg (Nat.not_lt_of_le h)

/-- The numbers stay in order. -/
theorem monotone_closeGap (id : Nat) : Monotone (closeGap id) := by
  intro m n h
  unfold closeGap
  split <;> split <;> omega

/-- Numbers that are counted from a first one on. -/
theorem closeGap_add (first k n : Nat) :
    closeGap (first + k) (first + n) = first + closeGap k n := by
  unfold closeGap
  split <;> split <;> omega

/-! ### Other numbers -/

/-- The rule under another number. -/
def Accept.renumber (f : Nat → Nat) (a : Accept) : Accept := { a with rule := f a.rule }

/-- The state with another number for the rule that it accepts. -/
def State.renumber (f : Nat → Nat) (s : State) : State :=
  { s with accept := s.accept.map (·.renumber f) }

/-- The lexical state with other numbers for its rules. -/
def LexStateInfo.renumber (f : Nat → Nat) (s : LexStateInfo) : LexStateInfo :=
  { s with eofRule := s.eofRule.map f, firstRule := f s.firstRule, endRule := f s.endRule }

/-- The automaton without rule number `id`: the later rules have the number before theirs. -/
def Automaton.withoutRule (a : Automaton) (id : Nat) : Automaton where
  states := a.states.map (State.renumber (closeGap id))
  lexStates := a.lexStates.map (LexStateInfo.renumber (closeGap id))
  rules := (a.rules.toList.eraseIdx id).toArray

namespace Block

/-- The block with other numbers for its rules. -/
def renumber (f : Nat → Nat) (b : Block) : Block :=
  { b with accepts := b.accepts.map (Prod.map id (Accept.renumber f)) }

variable {f : Nat → Nat} {start id id' base : Nat} {rs : List ResolvedRule}

/-- A block of rules with other numbers is the block with other numbers. -/
theorem ofRules_renumber (h : ∀ n, f (id + n) = id' + n) :
    ofRules start id' base rs = (ofRules start id base rs).renumber f := by
  induction rs generalizing id id' base with
  | nil => rfl
  | cons r rs ih =>
    have hself : f id = id' := h 0
    have hrest : ∀ n, f (id + 1 + n) = id' + 1 + n := by
      intro n
      rw [Nat.add_assoc, Nat.add_assoc]
      exact h (1 + n)
    unfold ofRules
    cases r.pattern with
    | none => simp only [ih hrest, renumber]
    | some p => simp [ih hrest, renumber, ResolvedRule.accept, Accept.renumber, hself]

/-- Without a rule that has no fragment the block is the same but for its numbers. -/
theorem ofRules_eraseIdx {j : Nat} (h : ∀ r, rs[j]? = some r → r.pattern = none) :
    ofRules start id base (rs.eraseIdx j) =
      { (ofRules start id base rs).renumber (closeGap (id + j)) with
        fragments := (ofRules start id base rs).fragments.eraseIdx j } := by
  induction rs generalizing id base j with
  | nil => rfl
  | cons r rs ih =>
    cases j with
    | zero =>
      have hlater : ∀ n, closeGap id (id + 1 + n) = id + n := by
        intro n
        rw [closeGap_of_lt (by omega)]
        omega
      rw [List.eraseIdx_cons_zero, ofRules, h r rfl, ofRules_renumber hlater]
      rfl
    | succ j =>
      have hgap : id + 1 + j = id + (j + 1) := by omega
      have hself : closeGap (id + (j + 1)) id = id := closeGap_of_le (by omega)
      rw [List.eraseIdx_cons_succ, ofRules, ofRules]
      cases r.pattern with
      | none => simp only [ih h, renumber, hgap, List.eraseIdx_cons_succ]
      | some p =>
        simp [ih h, renumber, hgap, ResolvedRule.accept, Accept.renumber, hself]

/-- The same for the block of a lexical state. -/
theorem ofLexState_renumber (h : ∀ n, f (id + n) = id' + n) :
    ofLexState start id' rs = (ofLexState start id rs).renumber f := by
  rw [ofLexState, ofRules_renumber h]
  rfl

/-- A rule without a pattern leaves nothing in the block but its number. -/
theorem ofLexState_eraseIdx {j : Nat} (h : ∀ r, rs[j]? = some r → r.pattern = none) :
    ofLexState start id (rs.eraseIdx j) =
      { (ofLexState start id rs).renumber (closeGap (id + j)) with
        fragments := (ofLexState start id rs).fragments.eraseIdx j } := by
  rw [ofLexState, ofRules_eraseIdx h]
  rfl

/-- The states under other numbers. -/
theorem states_renumber (f : Nat → Nat) (b : Block) (lexState start : Nat) :
    (b.renumber f).states lexState start = (b.states lexState start).map (State.renumber f) := by
  refine Array.ext_getElem? fun j => ?_
  simp only [states, renumber, getElem?_foldl_modify, Array.getElem?_map, Array.getElem?_replicate,
    List.filter_map]
  split
  · -- The state accepts the last rule that is meant for it, if there is one.
    simp [foldl_move, foldl_jump, foldl_accept, State.renumber, Function.comp_def]
  · rfl

end Block

/-! ### Rules without fragments -/

section Rules

variable {rs : List ResolvedRule} {j : Nat}

/-- A rule that is not the end of the input may be left out: the place of the end moves with the
others. -/
theorem findIdx?_isEof_eraseIdx (h : ∀ r, rs[j]? = some r → r.isEof = false) :
    (rs.eraseIdx j).findIdx? ResolvedRule.isEof =
      (rs.findIdx? ResolvedRule.isEof).map (closeGap j) := by
  induction rs generalizing j with
  | nil => rfl
  | cons r rs ih =>
    cases j with
    | zero =>
      have hlater : closeGap 0 ∘ (fun n => n + 1) = id :=
        funext fun n => closeGap_of_lt (Nat.succ_pos n)
      rw [List.eraseIdx_cons_zero, List.findIdx?_cons, h r rfl]
      simp only [Bool.false_eq_true, if_false, Option.map_map, hlater, Option.map_id_fun, id]
    | succ j =>
      rw [List.eraseIdx_cons_succ, List.findIdx?_cons, List.findIdx?_cons, ih h]
      have hlater : closeGap (j + 1) ∘ (fun n => n + 1) = (fun n => n + 1) ∘ closeGap j :=
        funext fun n => by
          simp only [Function.comp_apply, Nat.add_comm _ 1, closeGap_add]
      split
      · exact congrArg some (closeGap_of_le (Nat.zero_le _)).symm
      · rw [Option.map_map, Option.map_map, hlater]

/-- Leaving out a place in two lists leaves it out of what they are combined to. -/
theorem zipWith_eraseIdx {α β γ : Type} (f : α → β → γ) (as : List α) (bs : List β) (j : Nat) :
    List.zipWith f (as.eraseIdx j) (bs.eraseIdx j) = (List.zipWith f as bs).eraseIdx j := by
  induction as generalizing bs j with
  | nil => simp
  | cons a as ih =>
    cases bs with
    | nil => simp
    | cons b bs =>
      cases j with
      | zero => rfl
      | succ j => simp [ih]

end Rules

namespace Automaton

variable {a : Automaton} {name : String} {rs : List ResolvedRule} {id j : Nat}

/-- There is no rule to be left out of the empty automaton. -/
theorem withoutRule_empty (id : Nat) : withoutRule {} id = {} := by
  simp [withoutRule]

/-- All the states stay. -/
theorem size_states_withoutRule : (a.withoutRule id).states.size = a.states.size := Array.size_map

/-- All the lexical states stay. -/
theorem size_lexStates_withoutRule : (a.withoutRule id).lexStates.size = a.lexStates.size :=
  Array.size_map

/-- One more lexical state, behind the rule that is taken away. -/
theorem addRules_withoutRule (h : id < a.rules.size) :
    (a.withoutRule id).addRules name rs = (a.addRules name rs).withoutRule id := by
  have hnumbers : ∀ n, closeGap id (a.rules.size + n) = a.rules.size - 1 + n := by
    intro n
    rw [closeGap_of_lt (by omega)]
    omega
  have hfirst : closeGap id a.rules.size = a.rules.size - 1 := hnumbers 0
  have heof : closeGap id ∘ (a.rules.size + ·) = (a.rules.size - 1 + ·) := funext hnumbers
  have hsize : (a.withoutRule id).rules.size = a.rules.size - 1 := by
    simp [withoutRule, List.length_eraseIdx, h]
  have hrules : ∀ infos : List RuleInfo, ((a.rules ++ infos.toArray).toList.eraseIdx id).toArray =
      (a.rules.toList.eraseIdx id).toArray ++ infos.toArray := by
    intro infos
    rw [Array.toList_append, List.eraseIdx_append_of_lt_length (by simpa using h)]
    simp
  simp only [addRules, hsize, size_states_withoutRule, size_lexStates_withoutRule,
    Block.ofLexState_renumber hnumbers, Block.states_renumber]
  simp only [withoutRule, Array.map_append, Array.map_push, hrules, LexStateInfo.renumber,
    Option.map_map, hnumbers, hfirst, heof]
  rfl

/-- One more lexical state, which has the rule that is taken away. -/
theorem addRules_eraseIdx (h : ∀ r, rs[j]? = some r → r.pattern = none ∧ r.isEof = false) :
    (a.withoutRule (a.rules.size + j)).addRules name (rs.eraseIdx j) =
      (a.addRules name rs).withoutRule (a.rules.size + j) := by
  have hfirst : closeGap (a.rules.size + j) a.rules.size = a.rules.size :=
    closeGap_of_le (Nat.le_add_right ..)
  have heof : closeGap (a.rules.size + j) ∘ (a.rules.size + ·) = (a.rules.size + ·) ∘ closeGap j :=
    funext fun n => closeGap_add ..
  have hlength : (rs.eraseIdx j).length = closeGap j rs.length := List.length_eraseIdx
  have hold : a.rules.toList.eraseIdx (a.rules.size + j) = a.rules.toList :=
    List.eraseIdx_of_length_le (by simp)
  have hsize : (a.withoutRule (a.rules.size + j)).rules.size = a.rules.size := by
    simp [withoutRule, hold]
  have hrules : ∀ infos : List RuleInfo,
      ((a.rules ++ infos.toArray).toList.eraseIdx (a.rules.size + j)).toArray =
        a.rules ++ (infos.eraseIdx j).toArray := by
    intro infos
    rw [Array.toList_append, List.eraseIdx_append_of_length_le (by simp)]
    simp
  simp only [addRules, hsize, size_states_withoutRule, size_lexStates_withoutRule, hlength,
    Block.ofLexState_eraseIdx fun r hr => (h r hr).1,
    findIdx?_isEof_eraseIdx fun r hr => (h r hr).2, zipWith_eraseIdx]
  simp only [withoutRule, Array.map_append, Array.map_push, hrules, hold, LexStateInfo.renumber,
    Option.map_map, closeGap_add, hfirst, heof]
  congr 2
  -- The states do not depend on the fragments of the block.
  exact Block.states_renumber _ (Block.ofLexState a.states.size a.rules.size rs) _ _

/-- More lexical states, behind the rule that is taken away. -/
theorem foldl_addRules_withoutRule (h : id < a.rules.size)
    (states : List (String × List ResolvedRule)) :
    states.foldl (fun a s => a.addRules s.1 s.2) (a.withoutRule id) =
      (states.foldl (fun a s => a.addRules s.1 s.2) a).withoutRule id := by
  induction states generalizing a with
  | nil => rfl
  | cons s states ih =>
    have hlt : id < (a.addRules s.1 s.2).rules.size := by
      rw [size_rules_addRules]
      omega
    rw [List.foldl_cons, addRules_withoutRule h, ih hlt]
    rfl

/-- One more lexical state, in front of the rule that is taken away. -/
theorem addRules_withoutRule_of_le (h : a.rules.size + rs.length ≤ id) :
    (a.withoutRule id).addRules name rs = (a.addRules name rs).withoutRule id := by
  obtain ⟨k, rfl⟩ : ∃ k, id = a.rules.size + k := ⟨id - a.rules.size, by omega⟩
  have hbehind : rs.length ≤ k := by omega
  have hnone : ∀ r, rs[k]? = some r → r.pattern = none ∧ r.isEof = false := by
    intro r hr
    rw [List.getElem?_eq_none hbehind] at hr
    cases hr
  rw [← addRules_eraseIdx hnone, List.eraseIdx_of_length_le hbehind]

/-- All the lexical states, of which the `i`-th has the rule that is taken away. -/
theorem foldl_addRules_modify {states : List (String × List ResolvedRule)} {i : Nat}
    {r : ResolvedRule} (hstate : states[i]? = some (name, rs)) (hr : rs[j]? = some r)
    (hpattern : r.pattern = none) (heof : r.isEof = false)
    (hid : id = a.rules.size + ((states.take i).flatMap (·.2)).length + j) :
    (states.modify i fun s => (s.1, s.2.eraseIdx j)).foldl (fun a s => a.addRules s.1 s.2)
        (a.withoutRule id) =
      (states.foldl (fun a s => a.addRules s.1 s.2) a).withoutRule id := by
  induction states generalizing i a with
  | nil => cases hstate
  | cons s states ih =>
    cases i with
    | zero =>
      cases hstate
      have hlt := (List.getElem?_eq_some_iff.1 hr).1
      -- The rule is in this state: the rules behind it take the numbers before theirs.
      have hstep : (a.withoutRule id).addRules name (rs.eraseIdx j) =
          (a.addRules name rs).withoutRule id := by
        rw [hid]
        refine addRules_eraseIdx fun r' hr' => ?_
        cases hr.symm.trans hr'
        exact ⟨hpattern, heof⟩
      rw [List.modify_zero_cons, List.foldl_cons, hstep, foldl_addRules_withoutRule]
      · rfl
      · rw [size_rules_addRules, hid]
        exact Nat.add_lt_add_left hlt _
    | succ i =>
      -- The rule is in a later state, so this one is added as it is.
      rw [List.take_succ_cons, List.flatMap_cons, List.length_append] at hid
      rw [List.modify_succ_cons, List.foldl_cons, addRules_withoutRule_of_le (by omega),
        ih hstate (by rw [size_rules_addRules]; omega)]
      rfl

/-! ### Rows -/

/-- The states, their edges and the start states are the same. -/
theorem sameShape_withoutRule (a : Automaton) (id : Nat) : a.SameShape (a.withoutRule id) where
  states := by
    rw [withoutRule, Array.map_map]
    refine congrArg (Array.map · a.states) (funext fun s => ?_)
    simp [State.shape, State.renumber, Function.comp_def]
  starts := Array.map_map

/-- Accepted rules get their new numbers. -/
theorem accept?_withoutRule (a : Automaton) (id q : Nat) :
    (a.withoutRule id).accept? q = (a.accept? q).map (Accept.renumber (closeGap id)) := by
  simp only [accept?, withoutRule, Array.getElem?_map]
  cases a.states[q]? <;> rfl

end Automaton

namespace Engine

variable {f : Nat → Nat} {set : StateSet} {best acc : Option Accept}

/-- The choice between two rules does not depend on their numbers, unless it fails. -/
theorem better_renumber {found : Accept} (h : better set best found = .ok acc) :
    better set (best.map (Accept.renumber f)) (found.renumber f) =
      .ok (acc.map (Accept.renumber f)) := by
  cases best with
  | none =>
    cases h
    rfl
  | some b =>
    simp only [better] at h
    by_cases hlower : found.ordinal < b.ordinal
    · rw [if_pos hlower] at h
      cases h
      exact if_pos hlower
    · rw [if_neg hlower] at h
      split at h
      · cases h
      · -- Rules of one ordinal that do not conflict are the same, so their numbers are.
        rename_i hconflict
        cases h
        refine (if_neg hlower).trans (if_neg fun ⟨hordinal, hdiffer⟩ => ?_)
        exact hconflict
          ⟨hordinal, hdiffer.imp (fun hne heq => hne (congrArg f heq)) fun hkind => hkind⟩

/-- Which rule is better does not depend on the numbers. -/
theorem foldlM_better_renumber {accepts : List Accept}
    (h : accepts.foldlM (better set) best = .ok acc) :
    (accepts.map (Accept.renumber f)).foldlM (better set) (best.map (Accept.renumber f)) =
      .ok (acc.map (Accept.renumber f)) := by
  induction accepts generalizing best with
  | nil =>
    cases h
    rfl
  | cons found accepts ih =>
    rw [List.foldlM_cons] at h
    rw [List.map_cons, List.foldlM_cons]
    cases hstep : better set best found with
    | error conflict =>
      rw [hstep] at h
      cases h
    | ok next =>
      rw [hstep] at h
      rw [better_renumber hstep]
      exact ih h

/-- A set accepts the same rule, under its new number. -/
theorem acceptOf_withoutRule {a : Automaton} {id : Nat}
    (h : (ofAutomaton a).acceptOf set = .ok acc) :
    (ofAutomaton (a.withoutRule id)).acceptOf set =
      .ok (acc.map (Accept.renumber (closeGap id))) := by
  have haccepts : set.toList.filterMap (a.withoutRule id).accept? =
      (set.toList.filterMap a.accept?).map (Accept.renumber (closeGap id)) := by
    rw [List.map_filterMap]
    exact congrArg (List.filterMap · set.toList) (funext (a.accept?_withoutRule id))
  show ((set.toList.filterMap (a.withoutRule id).accept?).foldlM (better set) none) = _
  rw [haccepts]
  exact foldlM_better_renumber h

end Engine

namespace Rows

/-- The rows with other numbers for the rules that they accept. -/
def renumber (f : Nat → Nat) (rows : Rows) : Rows :=
  { rows with accepts := rows.accepts.map (Option.map (Accept.renumber f)) }

/-- Of a list that is gone through without a failure, the results under another name. -/
theorem mapM_eq_ok_map {α β γ ε : Type} {f : α → Except ε β} {f' : α → Except ε γ} {g : β → γ}
    (h : ∀ a b, f a = .ok b → f' a = .ok (g b)) {as : List α} {bs : List β}
    (has : as.mapM f = .ok bs) : as.mapM f' = .ok (bs.map g) := by
  -- Each element gives its image; a failure would have been one before.
  induction as generalizing bs with
  | nil =>
    cases has
    rfl
  | cons a as ih =>
    rw [List.mapM_cons] at has ⊢
    cases hfirst : f a with
    | error e =>
      rw [hfirst] at has
      cases has
    | ok b =>
      rw [hfirst] at has
      cases hrest : as.mapM f with
      | error e =>
        rw [hrest] at has
        cases has
      | ok later =>
        rw [hrest] at has
        cases has
        rw [h a b hfirst, ih hrest]
        rfl

/-- Without the rule there are the same rows. -/
theorem ofEngine_withoutRule {a : Automaton} {rows : Rows} (id : Nat)
    (h : ofEngine (Engine.ofAutomaton a) = .ok rows) :
    ofEngine (Engine.ofAutomaton (a.withoutRule id)) = .ok (rows.renumber (closeGap id)) := by
  rw [ofEngine_ofAutomaton] at h ⊢
  rw [(a.sameShape_withoutRule id).searches_eq, (a.sameShape_withoutRule id).nextRows_eq]
  cases haccepts : ((searches a).flatMap itemsOf).mapM (Engine.ofAutomaton a).acceptOf with
  | error conflict =>
    rw [haccepts] at h
    cases h
  | ok accepts =>
    rw [haccepts] at h
    cases h
    rw [mapM_eq_ok_map (fun _ _ => Engine.acceptOf_withoutRule) haccepts]
    simp [renumber, bind, Except.bind]

end Rows

end Lexwright

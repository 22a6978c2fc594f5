import Lexwright.Proofs.Automaton.Implements
import Lexwright.Proofs.Pattern.Agreement

/-!
# `Lexwright.Proofs.Lexicon.Deletion`: a lexicon without one of its rules

A rule is deleted whose labels are referenced from nowhere else. The other rules keep the labels
that they refer to, so they are resolved as before. Nothing is wrong with them if nothing was wrong
before: the rules that are left are still in order.

* `Lexicon.without`, `Lexicon.Isolated`: the lexicon that is left, and when a rule can go.
* `Lexicon.parts_perm`: the nodes of a lexicon are those of the rule and those that are left.
* `Rule.given`: what a rule contributes, whatever stands before it.
* `Lexicon.sound_without`: the lexicon that is left is sound if the lexicon was.
-/

set_option autoImplicit false

namespace Lexwright

/-- The lexical state without its `j`-th rule. -/
def LexState.without (s : LexState) (j : Nat) : LexState := { s with rules := s.rules.eraseIdx j }

namespace Lexicon

/-- The lexicon without the `j`-th rule of its `i`-th lexical state. -/
def without (lexicon : Lexicon) (i j : Nat) : Lexicon :=
  { lexicon with states := lexicon.states.modify i (·.without j) }

/-- No label in the rule, its own or a nested one, is referenced outside of the rule. -/
def Isolated (lexicon : Lexicon) (i j : Nat) (rule : Rule) : Prop :=
  ∀ node ∈ rule.regex.preorder, ∀ name, node.tag.label = some name →
    ∀ tag, Regex.ref tag name ∉ (lexicon.without i j).parts

variable {lexicon : Lexicon} {options : Options} {i j : Nat} {state : LexState} {rule : Rule}

/-! ### The nodes that are left -/

/-- What one element of a list loses, the list loses. -/
theorem flatMap_modify_perm {α β : Type} {l : List α} {i : Nat} {a : α} {f : α → α}
    {g : α → List β} {rest : List β} (ha : l[i]? = some a)
    (h : (g a).Perm (rest ++ g (f a))) :
    (l.flatMap g).Perm (rest ++ (l.modify i f).flatMap g) := by
  induction l generalizing i with
  | nil => cases ha
  | cons b l ih =>
    cases i with
    | zero =>
      cases ha
      rw [List.modify_zero_cons, List.flatMap_cons, List.flatMap_cons, ← List.append_assoc]
      exact h.append_right _
    | succ i =>
      rw [List.modify_succ_cons, List.flatMap_cons, List.flatMap_cons]
      exact ((ih ha).append_left _).trans
        (List.perm_append_comm_assoc (g b) rest _)

/-- The nodes of the lexicon are those of the deleted rule and those that are left. -/
theorem parts_perm (hstate : lexicon.states[i]? = some state)
    (hrule : state.rules[j]? = some rule) :
    lexicon.parts.Perm (rule.regex.preorder ++ (lexicon.without i j).parts) := by
  refine flatMap_modify_perm hstate ?_
  obtain ⟨hlt, rfl⟩ := List.getElem?_eq_some_iff.1 hrule
  have hperm := List.getElem_cons_eraseIdx_perm hlt
  exact (hperm.symm.flatMap_right fun r => r.regex.preorder).trans
    (by rw [List.flatMap_cons])

/-- A part of a lexicon is one of the deleted rule or of what is left. -/
theorem mem_parts_iff (hstate : lexicon.states[i]? = some state)
    (hrule : state.rules[j]? = some rule) {r : Regex} :
    r ∈ lexicon.parts ↔ r ∈ rule.regex.preorder ∨ r ∈ (lexicon.without i j).parts := by
  rw [(parts_perm hstate hrule).mem_iff, List.mem_append]

/-! ### Labels and names -/

/-- The labels that are left are unique. -/
theorem labels_without (h : lexicon.labels.2 = []) (hstate : lexicon.states[i]? = some state)
    (hrule : state.rules[j]? = some rule) : (lexicon.without i j).labels.2 = [] := by
  rw [labels_eq_nil_iff] at h ⊢
  have hperm := (parts_perm hstate hrule).filterMap fun node => node.tag.label
  rw [List.filterMap_append] at hperm
  exact (List.nodup_append.1 (hperm.nodup_iff.1 h)).2.1

/-- The names of the states depend on their names and places only. -/
theorem foldl_addName_modify {f : LexState → LexState} (hname : ∀ s, (f s).name = s.name)
    (hpos : ∀ s, (f s).pos = s.pos) (states : List LexState) (i k : Nat)
    (found : Std.HashMap String Nat × List (Option Pos × Issue)) :
    ((states.modify i f).zipIdx k).foldl addName found = (states.zipIdx k).foldl addName found := by
  induction states generalizing i k found with
  | nil => rw [List.modify_nil]
  | cons s states ih =>
    cases i with
    | zero =>
      have hfirst : addName found (f s, k) = addName found (s, k) := by
        unfold addName
        simp only [hname, hpos]
      rw [List.modify_zero_cons, List.zipIdx_cons, List.zipIdx_cons, List.foldl_cons,
        List.foldl_cons, hfirst]
    | succ i =>
      rw [List.modify_succ_cons, List.zipIdx_cons, List.zipIdx_cons, List.foldl_cons,
        List.foldl_cons, ih]

/-- The lexical states keep their names and numbers. -/
theorem stateNames_without : (lexicon.without i j).stateNames = lexicon.stateNames :=
  foldl_addName_modify (f := (·.without j)) (fun _ => rfl) (fun _ => rfl) ..

/-- What is left refers to labels that are left, and these stand for the nodes they stood for. -/
theorem agrees_without (h : lexicon.labels.2 = []) (hstate : lexicon.states[i]? = some state)
    (hrule : state.rules[j]? = some rule) (hisolated : lexicon.Isolated i j rule) (limit : Nat)
    (ignoreCase : Bool) :
    Scope.Agrees (· ∈ (lexicon.without i j).parts) ⟨lexicon.labels.1, limit, ignoreCase⟩
      ⟨(lexicon.without i j).labels.1, limit, ignoreCase⟩ := by
  -- What a reference that is left leads to is not in the deleted rule.
  have hleft : ∀ {tag : Tag} {name : String} {r : Regex},
      .ref tag name ∈ (lexicon.without i j).parts → r.tag.label = some name →
        (r ∈ (lexicon.without i j).parts ↔ r ∈ lexicon.parts) := by
    intro tag name r href hlabel
    rw [mem_parts_iff hstate hrule]
    have hout : r ∉ rule.regex.preorder := fun hr => hisolated r hr name hlabel tag href
    simp [hout]
  constructor
  case ignoreCase => rfl
  case limit => rfl
  case part => exact mem_parts_of_mem_children
  case target =>
    intro tag name n href hn
    obtain ⟨hpart, hlabel⟩ := (mem_labels_iff h).1 ⟨n, hn, rfl⟩
    exact (hleft href hlabel).2 hpart
  case label =>
    intro tag name href
    have h' := labels_without h hstate hrule
    refine Option.ext fun r => ?_
    simp only [Option.map_eq_some_iff]
    rw [mem_labels_iff h, mem_labels_iff h']
    exact and_congr_left (hleft href)

end Lexicon

/-! ### The rules that are left -/

/-- What the rule contributes, without what is wrong with it. -/
def ResolvedRule.contribution (r : ResolvedRule) : ResolvedRule :=
  { r with issues := [], findings := [] }

/-- The environments know the same lexical states, and give the rule the same pattern and the same
issues, wherever it stands. -/
structure Environment.Alike (env env' : Environment) (rule : Rule) : Prop where
  stateIds : env'.stateIds = env.stateIds
  pattern : ∀ site site',
    (rule.regex.resolve ⟨env'.labels, env'.limit, rule.ignoreCase⟩ [] site').1 =
      (rule.regex.resolve ⟨env.labels, env.limit, rule.ignoreCase⟩ [] site).1
  issues : ∀ site site',
    (rule.regex.resolve ⟨env'.labels, env'.limit, rule.ignoreCase⟩ [] site').2.map (·.issue) =
      (rule.regex.resolve ⟨env.labels, env.limit, rule.ignoreCase⟩ [] site).2.map (·.issue)

section Rules

variable {env env' : Environment} {state state' : LexState} {rule : Rule} {site site' : Site}
  {previous previous' : Option Nat} {seen seen' : Bool}

/-- Environments that agree on the nodes of a rule are alike to it. -/
theorem Environment.alike_of_agrees {nodes : Regex → Prop}
    (hstateIds : env'.stateIds = env.stateIds)
    (h : Scope.Agrees nodes ⟨env.labels, env.limit, rule.ignoreCase⟩
      ⟨env'.labels, env'.limit, rule.ignoreCase⟩) (hrule : nodes rule.regex) :
    env.Alike env' rule where
  stateIds := hstateIds
  pattern site site' := (Regex.resolve_congr h hrule [] site site').1
  issues site site' := (Regex.resolve_congr h hrule [] site site').2

/-- What a rule contributes does not depend on what stands before it. -/
theorem contribution_resolveRule (h : env.Alike env' rule) (hpos : state'.pos = state.pos) :
    (resolveRule env' state' site' previous' seen' rule).contribution =
      (resolveRule env state site previous seen rule).contribution := by
  simp only [ResolvedRule.contribution, rule_resolveRule, name_resolveRule, pos_resolveRule,
    nextState_resolveRule, pattern_resolveRule, h.stateIds, h.pattern site site', hpos]

/-- A rule with no issue has none in another place either, if it is in order there. -/
theorem issues_resolveRule_eq_nil (h : env'.stateIds = env.stateIds)
    (hissues : (resolveRule env state site previous seen rule).issues = [])
    (hordinal : ordinalIssues rule rule.name previous' = [])
    (heof : rule.regex.isEof = true → seen' = false) :
    (resolveRule env' state' site' previous' seen' rule).issues = [] := by
  obtain ⟨-, hnext, hkind⟩ := issues_resolveRule_eq_nil_iff.1 hissues
  refine issues_resolveRule_eq_nil_iff.2 ⟨hordinal, ?_, kindIssues_eq_nil_iff.2 ⟨heof, ?_⟩⟩
  · unfold resolveNext at hnext ⊢
    rwa [h]
  · exact (kindIssues_eq_nil_iff.1 hkind).2

/-- A sound rule stays sound in another place, if it is in order there. -/
theorem sound_resolveRule (h : env.Alike env' rule)
    (hsound : (resolveRule env state site previous seen rule).Sound)
    (hordinal : ordinalIssues rule rule.name previous' = [])
    (heof : rule.regex.isEof = true → seen' = false) :
    (resolveRule env' state' site' previous' seen' rule).Sound where
  issues := issues_resolveRule_eq_nil h.stateIds hsound.issues hordinal heof
  findings := by
    by_cases heof' : rule.regex.isEof = true
    · rw [findings_resolveRule_of_isEof heof']
      exact fun f hf => absurd hf List.not_mem_nil
    · have hfindings := hsound.findings
      rw [findings_resolveRule heof'] at hfindings ⊢
      intro f hf
      have hissue := List.mem_map_of_mem (f := fun f : Finding => f.issue) hf
      rw [h.issues site site'] at hissue
      obtain ⟨f', hf', hsame⟩ := List.mem_map.1 hissue
      exact hsame ▸ hfindings f' hf'

/-- Nothing is reported for an ordinal above the one before. -/
theorem ordinalIssues_eq_nil {name : String}
    (h : ∀ p, previous = some p → p < rule.ordinal) : ordinalIssues rule name previous = [] := by
  unfold ordinalIssues
  cases previous with
  | none => rfl
  | some p => exact if_neg (Nat.not_le_of_lt (h p rfl))

/-- Rules that were sound, each in its place, are sound one after another if they are in order. -/
theorem sound_resolveRules (env : Environment) (state : LexState) {index i : Nat}
    {rules : List Rule}
    (h : ∀ rule ∈ rules, env.Alike env' rule ∧
      ∃ site previous seen, (resolveRule env state site previous seen rule).Sound)
    (hordinals : rules.Pairwise fun a b => a.ordinal < b.ordinal)
    (heof : rules.Pairwise fun a b => ¬(a.regex.isEof = true ∧ b.regex.isEof = true))
    (hprevious : ∀ p, previous = some p → ∀ rule ∈ rules, p < rule.ordinal)
    (hseen : seen = true → ∀ rule ∈ rules, ¬rule.regex.isEof = true) :
    ∀ r ∈ resolveRules env' state' index i previous seen rules, r.Sound := by
  -- What is asked of the rules before the rest is asked of `previous` and `seen`.
  induction rules generalizing i previous seen with
  | nil => exact fun r hr => absurd hr List.not_mem_nil
  | cons rule rest ih =>
    obtain ⟨⟨halike, site, previous', seen', hsound⟩, hrest⟩ := List.forall_mem_cons.1 h
    obtain ⟨hless, hordinals⟩ := List.pairwise_cons.1 hordinals
    obtain ⟨hone, heof⟩ := List.pairwise_cons.1 heof
    refine List.forall_mem_cons.2
      ⟨sound_resolveRule halike hsound ?_ ?_, ih hrest hordinals heof ?_ ?_⟩
    · exact ordinalIssues_eq_nil fun p hp => hprevious p hp rule List.mem_cons_self
    · intro hself
      exact Bool.eq_false_iff.2 fun hseen' => hseen hseen' rule List.mem_cons_self hself
    · intro p hp other hother
      cases hp
      exact hless other hother
    · intro hany other hother hself
      rcases Bool.or_eq_true_iff.1 hany with hseen' | hfirst
      · exact hseen hseen' other (List.mem_cons_of_mem _ hother) hself
      · exact hone other hother ⟨hfirst, hself⟩

/-- What a rule of the lexical state contributes. -/
def Rule.given (env : Environment) (state : LexState) (rule : Rule) : ResolvedRule :=
  (resolveRule env state ⟨0, 0, []⟩ none false rule).contribution

/-- Each of the rules contributes what it contributes alone. -/
theorem map_contribution_resolveRules {index i : Nat} {rules : List Rule}
    (h : ∀ rule ∈ rules, env.Alike env' rule) (hpos : state'.pos = state.pos) :
    (resolveRules env' state' index i previous seen rules).map ResolvedRule.contribution =
      rules.map (Rule.given env state) := by
  induction rules generalizing i previous seen with
  | nil => rfl
  | cons rule rest ih =>
    obtain ⟨hfirst, hrest⟩ := List.forall_mem_cons.1 h
    rw [resolveRules, List.map_cons, List.map_cons, ih hrest, contribution_resolveRule hfirst hpos]
    rfl

end Rules

/-! ### The lexicon that is left -/

/-- An environment is like itself. -/
theorem Environment.Alike.refl (env : Environment) (rule : Rule) : env.Alike env rule := by
  have h : Scope.Agrees (fun _ => True) ⟨env.labels, env.limit, rule.ignoreCase⟩
      ⟨env.labels, env.limit, rule.ignoreCase⟩ := .refl _
  exact alike_of_agrees rfl h trivial

namespace Lexicon

variable {lexicon : Lexicon} {options : Options} {i j i' : Nat} {state state' : LexState}
  {rule : Rule}

/-- Deleting a rule changes only the state that it is in. -/
theorem getElem?_states_without : (lexicon.without i j).states[i']? =
    (lexicon.states[i']?).map fun s => if i = i' then s.without j else s :=
  List.getElem?_modify ..

/-- A rule that is left finds what it found before. -/
theorem alike_without (h : lexicon.labels.2 = []) (hstate : lexicon.states[i]? = some state)
    (hrule : state.rules[j]? = some rule) (hisolated : lexicon.Isolated i j rule)
    {left : LexState} (hleft : left ∈ (lexicon.without i j).states) {other : Rule}
    (hother : other ∈ left.rules) :
    (Builder.ofLexicon lexicon options).env.Alike
      (Builder.ofLexicon (lexicon.without i j) options).env other := by
  have hpart : other.regex ∈ (lexicon.without i j).parts := by
    refine List.mem_flatMap.2 ⟨left, hleft, List.mem_flatMap.2 ⟨other, hother, ?_⟩⟩
    rw [Regex.preorder_eq]
    exact List.mem_cons_self
  refine Environment.alike_of_agrees ?_
    (agrees_without h hstate hrule hisolated options.maxRepetition other.ignoreCase) hpart
  exact congrArg Prod.fst stateNames_without

/-- The rules that are left contribute what they contributed. -/
theorem map_contribution_rulesOf (options : Options) (h : lexicon.labels.2 = [])
    (hstate : lexicon.states[i]? = some state) (hrule : state.rules[j]? = some rule)
    (hisolated : lexicon.Isolated i j rule) (hstate' : lexicon.states[i']? = some state') :
    let left := if i = i' then state'.without j else state'
    (Builder.rulesOf (Builder.ofLexicon (lexicon.without i j) options).env i' left).map
        ResolvedRule.contribution =
      let rules := (Builder.rulesOf (Builder.ofLexicon lexicon options).env i' state').map
        ResolvedRule.contribution
      if i = i' then rules.eraseIdx j else rules := by
  intro left
  have hleft : left ∈ (lexicon.without i j).states := by
    refine List.mem_of_getElem? (i := i') ?_
    rw [getElem?_states_without, hstate']
    rfl
  have hpos : left.pos = state'.pos := by
    show (if i = i' then state'.without j else state').pos = state'.pos
    split <;> rfl
  have hrules : left.rules = if i = i' then state'.rules.eraseIdx j else state'.rules := by
    show (if i = i' then state'.without j else state').rules = _
    split <;> rfl
  unfold Builder.rulesOf
  -- Both lists of rules contribute what their rules contribute by themselves.
  rw [map_contribution_resolveRules
      (fun other => alike_without h hstate hrule hisolated hleft) hpos,
    map_contribution_resolveRules (fun other _ => .refl _ other) rfl, hrules]
  simp only
  split
  · exact (List.eraseIdx_map ..).symm
  · rfl

/-- Nothing is wrong with what is left. -/
theorem sound_without (h : lexicon.Sound options) (hstate : lexicon.states[i]? = some state)
    (hrule : state.rules[j]? = some rule) (hisolated : lexicon.Isolated i j rule) :
    (lexicon.without i j).Sound options := by
  constructor
  case nonempty => exact Nat.lt_of_lt_of_eq h.nonempty (List.length_modify ..).symm
  case labels => exact labels_without h.labels hstate hrule
  case names =>
    rw [stateNames_without]
    exact h.names
  case rules =>
    intro i' left hleft
    obtain ⟨state', hstate', hstep⟩ := Option.map_eq_some_iff.1 (getElem?_states_without ▸ hleft)
    -- What is left of the rules is in the same order.
    have hsub : left.rules.Sublist state'.rules := by
      rw [← hstep]
      split
      · exact List.eraseIdx_sublist ..
      · exact .refl _
    have hsound := h.rules i' state' hstate'
    have hissues := fun r hr => (hsound r hr).issues
    refine sound_resolveRules (Builder.ofLexicon lexicon options).env state'
      (fun other hother => ⟨?_, ?_⟩)
      ((ordinals_increase hissues).1.sublist hsub) ((isEof_unique hissues).1.sublist hsub)
      (fun p hp => nomatch hp) (fun hseen => nomatch hseen)
    · exact alike_without h.labels hstate hrule hisolated (List.mem_of_getElem? hleft) hother
    · obtain ⟨j', hj'⟩ := List.getElem?_of_mem (hsub.subset hother)
      obtain ⟨site, previous, seen, hr⟩ : ∃ site previous seen,
          (Builder.rulesOf (Builder.ofLexicon lexicon options).env i' state')[j']? = some
            (resolveRule (Builder.ofLexicon lexicon options).env state' site previous seen other) :=
        Automaton.exists_resolveRule _ hj'
      exact ⟨site, previous, seen, hsound _ (List.mem_of_getElem? hr)⟩

end Lexicon

end Lexwright

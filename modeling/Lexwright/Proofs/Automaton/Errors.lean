import Mathlib.Data.List.Permutation
import Lexwright.Automaton.Builder
import Lexwright.Proofs.Log
import Lexwright.Proofs.Pattern.Resolve

/-!
# `Lexwright.Proofs.Automaton.Errors`: what a log without errors says of a lexicon

Every issue that is not a warning becomes an error of the log. So if no error is found while the
automaton is built, then nothing is wrong with the labels, the names and the rules, and only
warnings were found in the expressions (`Automaton.ofLexicon_eq`). The other way round, where nothing
is wrong no error is found (`Automaton.builtCleanly_of_sound`).

An issue of a node that is copied is reported once, at the first copy. That the later copies have
nothing else wrong needs the invariant `Builder.Reported`: what was reported is a warning, as long
as the log has no errors.
-/

set_option autoImplicit false

namespace Lexwright

/-- The message of an issue is an error unless the issue is a warning. -/
theorem Issue.error?_message {issue : Issue} {pos : Option Pos} :
    (issue.message pos).error? = none ↔ issue.isWarning = true := by
  unfold message
  split
  · rename_i h
    exact iff_of_true rfl h
  · rename_i h
    exact iff_of_false (fun h' => nomatch h') h

/-! ### Labels and names -/

namespace Lexicon

/-- The only issue of a label is that it is taken. -/
theorem forall_addLabel {P : Issue → Prop} (hP : ∀ label, P (.duplicateLabel label))
    {found : Labels × List (Option Pos × Issue)} {nodes : List Labelled}
    (h : ∀ x ∈ found.2, P x.2) : ∀ x ∈ (nodes.foldl addLabel found).2, P x.2 := by
  induction nodes generalizing found with
  | nil => exact h
  | cons n nodes ih =>
    refine ih ?_
    unfold addLabel
    split
    · exact h
    · split
      · intro x hx
        rcases List.mem_append.1 hx with hx | hx
        · exact h x hx
        · rw [List.mem_singleton.1 hx]
          exact hP _
      · exact h

/-- The only issue of a name is that it is taken. -/
theorem forall_addName {P : Issue → Prop} (hP : ∀ name, P (.duplicateState name))
    {found : Std.HashMap String Nat × List (Option Pos × Issue)}
    {states : List (LexState × Nat)} (h : ∀ x ∈ found.2, P x.2) :
    ∀ x ∈ (states.foldl addName found).2, P x.2 := by
  induction states generalizing found with
  | nil => exact h
  | cons s states ih =>
    refine ih ?_
    unfold addName
    split
    · intro x hx
      rcases List.mem_append.1 hx with hx | hx
      · exact h x hx
      · rw [List.mem_singleton.1 hx]
        exact hP _
    · exact h

end Lexicon

/-! ### Rules -/

/-- Nothing is wrong with the rule, and only warnings were found in its expression. -/
structure ResolvedRule.Sound (r : ResolvedRule) : Prop where
  issues : r.issues = []
  findings : Regex.OnlyWarnings r.findings

section Rule

variable {env : Environment} {state : LexState} {site : Site} {previous : Option Nat}
  {seen : Bool} {rule : Rule}

/-- What is wrong with a rule besides its order and its next state. -/
def kindIssues (state : LexState) (seen : Bool) (rule : Rule) : List Issue :=
  if rule.regex.isEof = true then if seen = true then [.severalEofRules state.name] else []
  else if rule.regex.tag.hidden = true then []
  else if rule.kind = eofKind ∧ rule.category.channel?.isSome = true then [.reservedKind rule.name]
  else []

/-- A resolved rule, field by field. It has a pattern unless it stands for the end of the input or
is hidden. -/
theorem resolveRule_eq : resolveRule env state site previous seen rule =
    { rule
      name := rule.name
      pos := rule.regex.tag.pos.or state.pos
      nextState := (resolveNext env rule rule.name).1
      pattern :=
        if rule.regex.isEof = true ∨ rule.regex.tag.hidden = true then none
        else some (rule.regex.resolve ⟨env.labels, env.limit, rule.ignoreCase⟩ [] site).1
      issues := ordinalIssues rule rule.name previous ++ (resolveNext env rule rule.name).2 ++
        kindIssues state seen rule
      findings :=
        if rule.regex.isEof = true then []
        else (rule.regex.resolve ⟨env.labels, env.limit, rule.ignoreCase⟩ [] site).2 } := by
  unfold resolveRule kindIssues
  by_cases heof : rule.regex.isEof = true
  · simp only [heof, true_or, if_true]
  · by_cases hhidden : rule.regex.tag.hidden = true
    · simp only [heof, hhidden, Bool.false_eq_true, or_true, if_false, if_true, List.append_nil]
    · simp only [heof, hhidden, Bool.false_eq_true, or_self, if_false]

/-- The issues that a rule itself can have. -/
theorem forall_issues_resolveRule {P : Issue → Prop}
    (hordinal : ∀ name ordinal previous, P (.ordinalOrder name ordinal previous))
    (hnext : ∀ name next, P (.unknownState name next))
    (hseveral : ∀ name, P (.severalEofRules name)) (hreserved : ∀ name, P (.reservedKind name)) :
    ∀ issue ∈ (resolveRule env state site previous seen rule).issues, P issue := by
  have hordinal : ∀ issue ∈ ordinalIssues rule rule.name previous, P issue := by
    unfold ordinalIssues
    intro issue h
    split at h
    · split at h
      · rw [List.mem_singleton.1 h]
        exact hordinal _ _ _
      · exact absurd h List.not_mem_nil
    · exact absurd h List.not_mem_nil
  have hnext : ∀ issue ∈ (resolveNext env rule rule.name).2, P issue := by
    unfold resolveNext
    intro issue h
    split at h
    · exact absurd h List.not_mem_nil
    · split at h
      · exact absurd h List.not_mem_nil
      · rw [List.mem_singleton.1 h]
        exact hnext _ _
  have hkind : ∀ issue ∈ kindIssues state seen rule, P issue := by
    unfold kindIssues
    split
    · split
      · exact List.forall_mem_singleton.2 (hseveral _)
      · exact List.forall_mem_nil _
    · split
      · exact List.forall_mem_nil _
      · split
        · exact List.forall_mem_singleton.2 (hreserved _)
        · exact List.forall_mem_nil _
  rw [resolveRule_eq]
  exact List.forall_mem_append.2 ⟨List.forall_mem_append.2 ⟨hordinal, hnext⟩, hkind⟩

/-- No issue of a rule is a warning. -/
theorem isWarning_resolveRule :
    ∀ issue ∈ (resolveRule env state site previous seen rule).issues, issue.isWarning = false :=
  forall_issues_resolveRule (fun _ _ _ => rfl) (fun _ _ => rfl) (fun _ => rfl) fun _ => rfl

/-- A resolved rule is still known as the rule. -/
@[simp] theorem rule_resolveRule : (resolveRule env state site previous seen rule).rule = rule := by
  rw [resolveRule_eq]

/-- A resolved rule keeps its name. -/
@[simp] theorem name_resolveRule :
    (resolveRule env state site previous seen rule).name = rule.name := by
  rw [resolveRule_eq]

/-- A resolved rule has its own position, or that of its lexical state. -/
@[simp] theorem pos_resolveRule : (resolveRule env state site previous seen rule).pos =
    rule.regex.tag.pos.or state.pos := by
  rw [resolveRule_eq]

/-- The next state of a resolved rule is the number of the state that it names. -/
theorem nextState_resolveRule : (resolveRule env state site previous seen rule).nextState =
    rule.nextState.bind fun next => env.stateIds[next]? := by
  rw [resolveRule_eq]
  unfold resolveNext
  split
  · rename_i hnone
    rw [hnone]
    rfl
  · rename_i next hsome
    rw [hsome]
    split
    · rename_i id hid
      exact hid.symm
    · rename_i hid
      exact hid.symm

/-- A rule has a pattern unless it stands for the end of the input or is hidden. -/
theorem pattern_resolveRule : (resolveRule env state site previous seen rule).pattern =
    if rule.regex.isEof = true ∨ rule.regex.tag.hidden = true then none
    else some (rule.regex.resolve ⟨env.labels, env.limit, rule.ignoreCase⟩ [] site).1 := by
  rw [resolveRule_eq]

/-- The end of the input has no expression in which anything could be found. -/
theorem findings_resolveRule_of_isEof (heof : rule.regex.isEof = true) :
    (resolveRule env state site previous seen rule).findings = [] := by
  rw [resolveRule_eq]
  exact if_pos heof

/-- What is found in a rule is what is found while its expression is resolved. -/
theorem findings_resolveRule (heof : ¬rule.regex.isEof = true) :
    (resolveRule env state site previous seen rule).findings =
      (rule.regex.resolve ⟨env.labels, env.limit, rule.ignoreCase⟩ [] site).2 := by
  rw [resolveRule_eq]
  exact if_neg heof

/-- Nothing is wrong with a rule where each of the three kinds of issues is missing. -/
theorem issues_resolveRule_eq_nil_iff :
    (resolveRule env state site previous seen rule).issues = [] ↔
      ordinalIssues rule rule.name previous = [] ∧ (resolveNext env rule rule.name).2 = [] ∧
        kindIssues state seen rule = [] := by
  rw [resolveRule_eq, List.append_eq_nil_iff, List.append_eq_nil_iff, and_assoc]

/-- No fault is found in the kind of a rule exactly if it is no second rule for the end of the
input, and not visible with the kind that is reserved for the end. -/
theorem kindIssues_eq_nil_iff : kindIssues state seen rule = [] ↔
    (rule.regex.isEof = true → seen = false) ∧
      (rule.regex.isEof = false → rule.regex.tag.hidden = false →
        ¬(rule.kind = eofKind ∧ rule.category.channel?.isSome = true)) := by
  unfold kindIssues
  cases rule.regex.isEof with
  | true => simp
  | false => cases rule.regex.tag.hidden <;> simp

/-- A rule without issues has an ordinal in order, a next state that exists, and no rule for the end
of the input before it. -/
theorem issues_resolveRule (h : (resolveRule env state site previous seen rule).issues = []) :
    ordinalIssues rule rule.name previous = [] ∧ (resolveNext env rule rule.name).2 = [] ∧
      ¬(rule.regex.isEof = true ∧ seen = true) := by
  obtain ⟨hordinal, hnext, hkind⟩ := issues_resolveRule_eq_nil_iff.1 h
  refine ⟨hordinal, hnext, fun ⟨heof, hseen⟩ => ?_⟩
  rw [(kindIssues_eq_nil_iff.1 hkind).1 heof] at hseen
  cases hseen

/-- An ordinal without issues is higher than the one before it. -/
theorem lt_of_ordinalIssues {name : String} {p : Nat}
    (h : ordinalIssues rule name (some p) = []) : p < rule.ordinal := by
  unfold ordinalIssues at h
  simp only at h
  split at h
  · cases h
  · omega

/-- A next state without issues exists. -/
theorem exists_of_resolveNext {name next : String} (hrule : rule.nextState = some next)
    (h : (resolveNext env rule name).2 = []) : ∃ id, env.stateIds[next]? = some id := by
  unfold resolveNext at h
  rw [hrule] at h
  simp only at h
  split at h
  · rename_i id hid
    exact ⟨id, hid⟩
  · cases h

end Rule

section Rules

variable {env : Environment} {state : LexState} {index : Nat}

/-- Every rule is resolved to one rule. -/
theorem length_resolveRules (i : Nat) (previous : Option Nat) (seen : Bool) (rules : List Rule) :
    (resolveRules env state index i previous seen rules).length = rules.length := by
  induction rules generalizing i previous seen with
  | nil => rfl
  | cons rule rest ih =>
    show (resolveRules env state index (i + 1) (some rule.ordinal) _ rest).length + 1 = _
    rw [ih]
    rfl

/-- Each rule is resolved, with some rules before it. -/
theorem exists_getElem?_resolveRules {i j : Nat} {previous : Option Nat} {seen : Bool}
    {rules : List Rule} {r : ResolvedRule}
    (h : (resolveRules env state index i previous seen rules)[j]? = some r) :
    ∃ rule site previous' seen', rules[j]? = some rule ∧
      r = resolveRule env state site previous' seen' rule := by
  induction rules generalizing i j previous seen with
  | nil => cases h
  | cons rule rest ih =>
    cases j with
    | zero =>
      cases h
      exact ⟨rule, _, _, _, rfl, rfl⟩
    | succ j => exact ih h

/-- Resolving keeps the rules for the end of the input in their places. -/
theorem findIdx?_isEof_resolveRules (i : Nat) (previous : Option Nat) (seen : Bool)
    (rules : List Rule) :
    (resolveRules env state index i previous seen rules).findIdx? ResolvedRule.isEof =
      rules.findIdx? fun rule => rule.regex.isEof := by
  induction rules generalizing i previous seen with
  | nil => rfl
  | cons rule rest ih =>
    have hfirst : ∀ site, (resolveRule env state site previous seen rule).isEof =
        rule.regex.isEof := fun site => by
      unfold ResolvedRule.isEof
      rw [rule_resolveRule]
    unfold resolveRules
    rw [List.findIdx?_cons, List.findIdx?_cons, ih, hfirst]

/-- The ordinals of sound rules increase. -/
theorem ordinals_increase {i : Nat} {previous : Option Nat} {seen : Bool} {rules : List Rule}
    (h : ∀ r ∈ resolveRules env state index i previous seen rules, r.issues = []) :
    rules.Pairwise (fun a b => a.ordinal < b.ordinal) ∧
      ∀ p, previous = some p → ∀ rule ∈ rules, p < rule.ordinal := by
  -- Every rule is compared with the one before it, which bounds all the later ones from below.
  induction rules generalizing i previous seen with
  | nil => exact ⟨.nil, fun p _ rule hrule => absurd hrule List.not_mem_nil⟩
  | cons rule rest ih =>
    obtain ⟨hpairwise, hlater⟩ := ih fun r hr => h r (List.mem_cons_of_mem _ hr)
    have hrest : ∀ other ∈ rest, rule.ordinal < other.ordinal := hlater _ rfl
    refine ⟨List.pairwise_cons.2 ⟨hrest, hpairwise⟩, fun p hp other hother => ?_⟩
    subst hp
    have hfirst := lt_of_ordinalIssues (issues_resolveRule (h _ List.mem_cons_self)).1
    rcases List.mem_cons.1 hother with rfl | hother
    · exact hfirst
    · exact Nat.lt_trans hfirst (hrest other hother)

/-- Of sound rules at most one stands for the end of the input. -/
theorem isEof_unique {i : Nat} {previous : Option Nat} {seen : Bool} {rules : List Rule}
    (h : ∀ r ∈ resolveRules env state index i previous seen rules, r.issues = []) :
    rules.Pairwise (fun a b => ¬(a.regex.isEof = true ∧ b.regex.isEof = true)) ∧
      (seen = true → ∀ rule ∈ rules, ¬rule.regex.isEof = true) := by
  -- Once such a rule was seen, no later rule is one.
  induction rules generalizing i previous seen with
  | nil => exact ⟨.nil, fun _ rule hrule => absurd hrule List.not_mem_nil⟩
  | cons rule rest ih =>
    obtain ⟨hpairwise, hlater⟩ := ih fun r hr => h r (List.mem_cons_of_mem _ hr)
    refine ⟨List.pairwise_cons.2 ⟨fun other hother hboth => ?_, hpairwise⟩,
      fun hseen other hother => ?_⟩
    · exact hlater (by rw [hboth.1, Bool.or_true]) other hother hboth.2
    · rcases List.mem_cons.1 hother with rfl | hother
      · exact fun heof =>
          (issues_resolveRule (h _ List.mem_cons_self)).2.2 ⟨heof, hseen⟩
      · exact hlater (by rw [hseen, Bool.true_or]) other hother

end Rules

/-! ### The builder -/

namespace Builder

/-- What was reported of nodes is a warning, as long as the log has no errors. -/
def Reported (found : Log × Std.HashSet (Site × Issue)) : Prop :=
  found.1.hasNoErrors = true → ∀ x ∈ found.2, x.2.isWarning = true

/-- If no error is reported for one more finding, the finding is a warning. A finding that was
reported before is not reported again, and is judged by its first report. -/
theorem reported_reportFinding {found : Log × Std.HashSet (Site × Issue)} (h : Reported found)
    (f : Finding) :
    Reported (reportFinding found f) ∧
      ((reportFinding found f).1.hasNoErrors = true →
        found.1.hasNoErrors = true ∧ f.issue.isWarning = true) := by
  unfold reportFinding
  split
  · rename_i hmem
    -- The node was reported before, so this issue is among those known to be warnings.
    exact ⟨h, fun hlog => ⟨hlog, h hlog _ (by simpa using hmem)⟩⟩
  · have hpush : (found.1.push (f.issue.message f.pos)).hasNoErrors = true →
        found.1.hasNoErrors = true ∧ f.issue.isWarning = true := fun hlog => by
      rw [Log.hasNoErrors_push, Issue.error?_message] at hlog
      exact hlog
    refine ⟨fun hlog x hx => ?_, hpush⟩
    obtain ⟨hfound, hwarning⟩ := hpush hlog
    rcases Std.HashSet.mem_insert.1 hx with heq | hx
    · rw [← eq_of_beq heq]
      exact hwarning
    · exact h hfound x hx

/-- The same for any findings, by induction on them. -/
theorem reported_foldl_reportFinding {found : Log × Std.HashSet (Site × Issue)}
    (h : Reported found) (fs : List Finding) :
    Reported (fs.foldl reportFinding found) ∧
      ((fs.foldl reportFinding found).1.hasNoErrors = true →
        found.1.hasNoErrors = true ∧ Regex.OnlyWarnings fs) := by
  induction fs generalizing found with
  | nil => exact ⟨h, fun hlog => ⟨hlog, fun f hf => absurd hf List.not_mem_nil⟩⟩
  | cons f fs ih =>
    obtain ⟨hnext, hfirst⟩ := reported_reportFinding h f
    obtain ⟨hend, hrest⟩ := ih hnext
    refine ⟨hend, fun hlog => ?_⟩
    obtain ⟨hlog, hwarnings⟩ := hrest hlog
    obtain ⟨hlog, hwarning⟩ := hfirst hlog
    exact ⟨hlog, List.forall_mem_cons.2 ⟨hwarning, hwarnings⟩⟩

/-- If no error is reported for some rules, they are sound. -/
theorem reported_foldl_reportRule {found : Log × Std.HashSet (Site × Issue)} (h : Reported found)
    {rs : List ResolvedRule} (hissues : ∀ r ∈ rs, ∀ issue ∈ r.issues, issue.isWarning = false) :
    Reported (rs.foldl reportRule found) ∧
      ((rs.foldl reportRule found).1.hasNoErrors = true →
        found.1.hasNoErrors = true ∧ ∀ r ∈ rs, r.Sound) := by
  induction rs generalizing found with
  | nil => exact ⟨h, fun hlog => ⟨hlog, fun r hr => absurd hr List.not_mem_nil⟩⟩
  | cons r rs ih =>
    have hpushed : Reported (found.1.pushAll (r.issues.map (·.message r.pos)), found.2) :=
      fun hlog => h (Log.hasNoErrors_pushAll.1 hlog).1
    obtain ⟨hnext, hfirst⟩ := reported_foldl_reportFinding hpushed r.findings
    have hnext : Reported (reportRule found r) := hnext
    obtain ⟨hend, hrest⟩ := ih hnext fun r hr => hissues r (List.mem_cons_of_mem _ hr)
    refine ⟨hend, fun hlog => ?_⟩
    obtain ⟨hlog, hsound⟩ := hrest hlog
    obtain ⟨hlog, hwarnings⟩ := hfirst hlog
    obtain ⟨hlog, hmessages⟩ := Log.hasNoErrors_pushAll.1 hlog
    refine ⟨hlog, List.forall_mem_cons.2 ⟨⟨?_, hwarnings⟩, hsound⟩⟩
    -- An issue of the rule is no warning, so its message would be an error.
    refine List.eq_nil_iff_forall_not_mem.2 fun issue hissue => ?_
    have hwarning := Issue.error?_message.1 (hmessages _ (List.mem_map_of_mem hissue))
    rw [hissues r List.mem_cons_self issue hissue] at hwarning
    cases hwarning

/-- Rules in which nothing was found leave the log as it was. -/
theorem foldl_reportRule_of_clean {rs : List ResolvedRule}
    (h : ∀ r ∈ rs, r.issues = [] ∧ r.findings = []) (found : Log × Std.HashSet (Site × Issue)) :
    rs.foldl reportRule found = found := by
  induction rs with
  | nil => rfl
  | cons r rs ih =>
    obtain ⟨hissues, hfindings⟩ := h r List.mem_cons_self
    have hfirst : reportRule found r = found := by
      rw [reportRule, hissues, hfindings]
      rfl
    rw [List.foldl_cons, hfirst]
    exact ih fun r' hr' => h r' (List.mem_cons_of_mem _ hr')

/-- The resolved rules of the lexical state with the given index. -/
def rulesOf (env : Environment) (index : Nat) (state : LexState) : List ResolvedRule :=
  resolveRules env state index 0 none false state.rules

/-- If no error is reported for some lexical states, their rules are sound. -/
theorem reported_addStates {b : Builder} (h : Reported (b.log, b.reported))
    {states : List (LexState × Nat)} (hlog : (b.addStates states).log.hasNoErrors = true) :
    b.log.hasNoErrors = true ∧ ∀ s ∈ states, ∀ r ∈ rulesOf b.env s.2 s.1, r.Sound := by
  unfold addStates at hlog
  induction states generalizing b with
  | nil => exact ⟨hlog, fun s hs => absurd hs List.not_mem_nil⟩
  | cons s states ih =>
    have hissues : ∀ r ∈ rulesOf b.env s.2 s.1, ∀ issue ∈ r.issues, issue.isWarning = false := by
      intro r hr
      obtain ⟨j, hj⟩ := List.getElem?_of_mem hr
      obtain ⟨rule, site, previous, seen, _, rfl⟩ := exists_getElem?_resolveRules hj
      exact isWarning_resolveRule
    obtain ⟨hnext, hfirst⟩ := reported_foldl_reportRule h hissues
    obtain ⟨hlog', hsound⟩ := ih (b := (b.addState s.2 s.1).1) hnext hlog
    obtain ⟨hlog', hsound'⟩ := hfirst hlog'
    exact ⟨hlog', List.forall_mem_cons.2 ⟨hsound', hsound⟩⟩

end Builder

/-- What it says of a lexicon that its automaton was built without an error. -/
structure Lexicon.Sound (lexicon : Lexicon) (options : Options) : Prop where
  nonempty : 0 < lexicon.states.length
  labels : lexicon.labels.2 = []
  names : lexicon.stateNames.2 = []
  rules : ∀ i state, lexicon.states[i]? = some state →
    ∀ r ∈ Builder.rulesOf (Builder.ofLexicon lexicon options).env i state, r.Sound

/-- A lexicon with one lexical state is sound if nothing at all is wrong with its labels and its
rules. -/
theorem Lexicon.sound_of_single {lexicon : Lexicon} {options : Options} {state : LexState}
    (hstates : lexicon.states = [state]) (hlabels : lexicon.labels.2 = [])
    (hrules : ∀ r ∈ Builder.rulesOf (Builder.ofLexicon lexicon options).env 0 state,
      r.issues = [] ∧ r.findings = []) : lexicon.Sound options where
  nonempty := by
    rw [hstates]
    exact Nat.one_pos
  labels := hlabels
  names := by simp [stateNames, hstates, addName]
  rules i state' hstate r hr := by
    rw [hstates] at hstate
    cases i with
    | zero =>
      cases hstate
      obtain ⟨hissues, hfindings⟩ := hrules r hr
      exact ⟨hissues, fun f hf => by simp [hfindings] at hf⟩
    | succ i => cases hstate

/-- Whether no error was found while the automaton was built. Errors that the lexicon came with do
not count. -/
def Automaton.BuiltCleanly (lexicon : Lexicon) (options : Options) : Prop :=
  (ofLexicon lexicon options).2.tally.errors = lexicon.log.tally.errors

/-- An automaton is built cleanly if neither the lexicon nor the automaton has errors in its log. -/
theorem Automaton.builtCleanly_of_hasNoErrors {lexicon : Lexicon} {options : Options}
    (hlexicon : lexicon.log.hasNoErrors = true)
    (hautomaton : (ofLexicon lexicon options).2.hasNoErrors = true) :
    BuiltCleanly lexicon options := by
  unfold BuiltCleanly
  rw [Log.hasNoErrors_iff.1 hlexicon, Log.hasNoErrors_iff.1 hautomaton]

/-- Where no error is found, the automaton is that of the builder, and nothing is wrong with the
lexicon. -/
theorem Automaton.ofLexicon_eq {lexicon : Lexicon} {options : Options}
    (h : BuiltCleanly lexicon options) :
    (ofLexicon lexicon options).1 =
        ((Builder.ofLexicon lexicon options).addStates lexicon.states.zipIdx).automaton ∧
      lexicon.Sound options := by
  unfold BuiltCleanly ofLexicon at h
  unfold ofLexicon
  simp only at h ⊢
  split at h
  · exact absurd h (Nat.succ_ne_self _)
  · split at h
    · exact absurd h (Nat.succ_ne_self _)
    · rename_i hsome hmany
      rw [if_neg hsome, if_neg hmany]
      refine ⟨rfl, ?_⟩
      -- The errors of the builder are added to those of the lexicon, so there are none.
      have hlog : ((Builder.ofLexicon lexicon options).addStates
          lexicon.states.zipIdx).log.hasNoErrors = true := by
        rw [Log.hasNoErrors_iff]
        exact Nat.add_left_cancel (h.trans (Nat.add_zero _).symm)
      have hnone : Builder.Reported ((Builder.ofLexicon lexicon options).log,
          (Builder.ofLexicon lexicon options).reported) :=
        fun _ x hx => absurd hx Std.HashSet.not_mem_empty
      obtain ⟨hlog, hrules⟩ := Builder.reported_addStates hnone hlog
      -- Every issue of a label or a name is an error, so there is none.
      have hnil : ∀ issues : List (Option Pos × Issue),
          (∀ x ∈ issues, x ∈ lexicon.labels.2 ++ lexicon.stateNames.2) →
          (∀ x ∈ issues, x.2.isWarning = false) → issues = [] := by
        intro issues hmem herror
        refine List.eq_nil_iff_forall_not_mem.2 fun x hx => ?_
        have hmessage := (Log.hasNoErrors_pushAll.1 hlog).2 _
          (List.mem_map_of_mem (f := fun i => i.2.message i.1) (hmem x hx))
        have hwarning := Issue.error?_message.1 hmessage
        rw [herror x hx] at hwarning
        cases hwarning
      refine ⟨Nat.pos_of_ne_zero hsome, hnil _ (fun x hx => List.mem_append_left _ hx) ?_,
        hnil _ (fun x hx => List.mem_append_right _ hx) ?_, fun i state hstate => ?_⟩
      · exact Lexicon.forall_addLabel (P := fun issue => issue.isWarning = false) (fun _ => rfl)
          fun x hx => absurd hx List.not_mem_nil
      · exact Lexicon.forall_addName (P := fun issue => issue.isWarning = false) (fun _ => rfl)
          fun x hx => absurd hx List.not_mem_nil
      · refine hrules (state, i) ?_
        rw [List.mem_zipIdx_iff_getElem?]
        exact hstate

/-! ### A sound lexicon -/

namespace Builder

/-- Warnings are no errors, so rules that are sound leave a log without errors. -/
theorem hasNoErrors_foldl_reportRule {found : Log × Std.HashSet (Site × Issue)}
    (h : found.1.hasNoErrors = true) {rs : List ResolvedRule} (hrs : ∀ r ∈ rs, r.Sound) :
    (rs.foldl reportRule found).1.hasNoErrors = true := by
  -- Findings that are warnings leave the log without errors.
  have hfinding : ∀ (fs : List Finding) (found : Log × Std.HashSet (Site × Issue)),
      found.1.hasNoErrors = true → Regex.OnlyWarnings fs →
        (fs.foldl reportFinding found).1.hasNoErrors = true := by
    intro fs
    induction fs with
    | nil => exact fun _ h _ => h
    | cons f fs ih =>
      intro found h hfs
      obtain ⟨hfirst, hrest⟩ := List.forall_mem_cons.1 hfs
      refine ih _ ?_ hrest
      unfold reportFinding
      split
      · exact h
      · exact Log.hasNoErrors_push.2 ⟨h, Issue.error?_message.2 hfirst⟩
  induction rs generalizing found with
  | nil => exact h
  | cons r rs ih =>
    obtain ⟨hfirst, hrest⟩ := List.forall_mem_cons.1 hrs
    refine ih (hfinding _ _ ?_ hfirst.findings) hrest
    rw [hfirst.issues]
    exact h

/-- No error is reported for lexical states whose rules are sound. -/
theorem hasNoErrors_addStates {b : Builder} (h : b.log.hasNoErrors = true)
    {states : List (LexState × Nat)}
    (hsound : ∀ s ∈ states, ∀ r ∈ rulesOf b.env s.2 s.1, r.Sound) :
    (b.addStates states).log.hasNoErrors = true := by
  induction states generalizing b with
  | nil => exact h
  | cons s states ih =>
    obtain ⟨hfirst, hrest⟩ := List.forall_mem_cons.1 hsound
    have hstep : ((rulesOf b.env s.2 s.1).foldl reportRule (b.log, b.reported)).1.hasNoErrors =
        true := hasNoErrors_foldl_reportRule h hfirst
    exact ih (b := (b.addState s.2 s.1).1) hstep hrest

end Builder

/-- The automaton of a sound lexicon is built without an error, if there are not too many lexical
states. -/
theorem Automaton.builtCleanly_of_sound {lexicon : Lexicon} {options : Options}
    (h : lexicon.Sound options) (hmany : lexicon.states.length ≤ maxLexStates) :
    BuiltCleanly lexicon options := by
  have hlog : ((Builder.ofLexicon lexicon options).addStates
      lexicon.states.zipIdx).log.hasNoErrors = true := by
    refine Builder.hasNoErrors_addStates ?_ fun s hs => ?_
    · simp only [Builder.ofLexicon, h.labels, h.names]
      rfl
    · exact h.rules s.2 s.1 (List.mem_zipIdx_iff_getElem?.1 hs)
  unfold BuiltCleanly ofLexicon
  simp only
  rw [if_neg (Nat.ne_of_gt h.nonempty), if_neg (Nat.not_lt_of_le hmany)]
  exact congrArg (lexicon.log.tally.errors + ·) (Log.hasNoErrors_iff.1 hlog)

/-- An automaton that is built without an error has not too many lexical states. -/
theorem Automaton.length_le_of_builtCleanly {lexicon : Lexicon} {options : Options}
    (h : BuiltCleanly lexicon options) : lexicon.states.length ≤ maxLexStates := by
  by_contra hmany
  unfold BuiltCleanly ofLexicon at h
  simp only at h
  rw [if_neg (by omega), if_pos (by omega)] at h
  exact Nat.succ_ne_self _ h

/-! ### A lexicon without errors -/

/-- Words of the form `ab*`. Blanks between them are dropped, and opening brackets are kept in
front of the next word. -/
def Lexicon.words : Lexicon where
  states := [{ name := "main", rules := [
    { ordinal := 0, kind := 1,
      regex := .seq {} [one 'a', .repeated {} .zeroOrMore (one 'b')] },
    { ordinal := 1, kind := 0, category := .skip, regex := one ' ' },
    { ordinal := 2, kind := 0, category := .more, regex := one '(' }] }]
where
  one (c : Char) : Regex := .chars {} false [(c, c)]

/-- Settings without the search for rules that never match. -/
def Options.quiet : Options := { warnUnreachable := false }

set_option maxRecDepth 100000 in
/-- The sample lexicon has no errors. -/
theorem hasNoErrors_words :
    (Automaton.ofLexicon Lexicon.words Options.quiet).2.hasNoErrors = true := by
  cbv

end Lexwright

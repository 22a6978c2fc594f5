import Lexwright.Proofs.Automaton.Implements
import Lexwright.Proofs.Automaton.Reports
import Lexwright.Proofs.Pattern.Inlining

/-!
# `Lexwright.Proofs.Automaton.Recursion`: references that would be inlined for ever

Resolving reports a reference to a label that is open. Inlining does not ask which labels are open,
and may go on for ever. So the visits of resolving, which end, are compared with the steps of
inlining.

* `Visit.recursive_of_endless`: an endless expression leads to a reference to an open label, as the
  visits end and the steps do not.
* `Visit.Grounded`: every open label stands for a node from which the visited node is inlined. So a
  reference to an open label closes a cycle (`Visit.Grounded.endless`).
* `Automaton.recursion_detected`: resolving ends, and an error is logged for a recursive reference
  just where inlining does not.
-/

set_option autoImplicit false

namespace Lexwright

open Relation

/-! ### Visits -/

/-- What the expressions of a lexicon are resolved against. -/
def Lexicon.scope (lexicon : Lexicon) (limit : Nat) (ignoreCase : Bool) : Scope :=
  ⟨lexicon.labels.1, limit, ignoreCase⟩

/-- Some reference is found to be recursive. -/
def Recursive (found : List Finding) : Prop :=
  ∃ f ∈ found, ∃ name, f.issue = .recursiveReference name

/-- Findings are about recursion if one of their issues is. -/
theorem recursive_map {issues : List Issue} {site : Site} {pos : Option Pos} :
    Recursive (issues.map (⟨site, pos, ·⟩)) ↔ ∃ name, .recursiveReference name ∈ issues := by
  unfold Recursive
  simp only [List.mem_map, exists_exists_and_eq_and]
  exact ⟨fun ⟨_, hmem, name, heq⟩ => ⟨name, heq ▸ hmem⟩, fun ⟨name, hmem⟩ => ⟨_, hmem, name, rfl⟩⟩

namespace Visit

variable {lexicon : Lexicon} {limit : Nat} {ignoreCase : Bool} {v w : Visit} {root s : Regex}

/-- Of a node only a reference to an open label is found to be recursive. -/
theorem recursive_own (k : Scope) (v : Visit) :
    Recursive (v.own k) ↔ ∃ tag name, v.node = .ref tag name ∧ name ∈ tag.open v.opened := by
  obtain ⟨opened, site, node⟩ := v
  unfold own
  rw [recursive_map]
  cases node with
  | chars tag negated ranges => simp [invalidRanges]
  | literal tag text => simp
  | choice tag rs => simp
  | seq tag rs => simp
  | repeated tag count inner =>
    refine iff_of_false ?_ (by simp)
    rintro ⟨name, hname⟩
    exact Count.forall_issue? (P := (· ≠ .recursiveReference name)) (fun _ _ => Issue.noConfusion)
      (fun _ _ => Issue.noConfusion) (Option.mem_toList.1 hname) rfl
  | eof tag => simp
  | ref tag name =>
    by_cases hopen : name ∈ tag.open opened
    · simp [hopen]
    · by_cases hsome : (k.labels[name]?).isSome = true
      · simp [hopen, hsome]
      · simp [hopen, hsome]

/-- A visit finds recursion at its own node or in a visit that it makes. -/
theorem recursive_result (k : Scope) (v : Visit) :
    Recursive (v.result k).2 ↔
      Recursive (v.own k) ∨ ∃ w ∈ v.next k, Recursive (w.result k).2 := by
  unfold Recursive
  rw [snd_result]
  simp only [List.mem_append, List.mem_flatMap]
  constructor
  · rintro ⟨f, hf | ⟨w, hw, hf⟩, hissue⟩
    · exact Or.inl ⟨f, hf, hissue⟩
    · exact Or.inr ⟨w, hw, f, hf, hissue⟩
  · rintro (⟨f, hf, hissue⟩ | ⟨w, hw, f, hf, hissue⟩)
    · exact ⟨f, Or.inl hf, hissue⟩
    · exact ⟨f, Or.inr ⟨w, hw, hf⟩, hissue⟩

/-- A step of inlining is a visit, unless it is a reference to an open label. -/
theorem exists_next_of_inlines (ignoreCase : Bool) (hlabels : lexicon.labels.2 = [])
    (h : Regex.Inlines lexicon limit v.node s) :
    Recursive (v.own (lexicon.scope limit ignoreCase)) ∨
      ∃ w ∈ v.next (lexicon.scope limit ignoreCase), w.node = s := by
  generalize hnode : v.node = node at h
  cases h with
  | part hpart =>
    subst hnode
    exact Or.inr (exists_next_of_mem_inlined hpart)
  | @ref tag name r htarget =>
    by_cases hopen : name ∈ tag.open v.opened
    · exact Or.inl ((recursive_own _ v).2 ⟨tag, name, hnode, hopen⟩)
    · obtain ⟨n, hn, rfl⟩ := (Lexicon.target_iff_labels hlabels name s).1 htarget
      refine Or.inr ⟨⟨name :: tag.open v.opened, n.site, n.node⟩, ?_, rfl⟩
      unfold next
      rw [hnode]
      simp only [List.contains_eq_mem, hopen, decide_false, Bool.false_eq_true, if_false]
      exact List.mem_map.2 ⟨n, Option.mem_toList.2 hn, rfl⟩

/-- In an endless expression a reference is found to be recursive. -/
theorem recursive_of_endless (hlabels : lexicon.labels.2 = [])
    (h : v.node.Endless lexicon limit) :
    Recursive (v.result (lexicon.scope limit ignoreCase)).2 := by
  -- The steps that never end are followed by visits, and those end.
  induction v using (wellFounded_next (lexicon.scope limit ignoreCase)).induction with
  | _ v ih =>
    obtain ⟨s, hstep, hs⟩ := h.exists_inlines
    rw [recursive_result]
    rcases exists_next_of_inlines ignoreCase hlabels hstep with hown | ⟨w, hw, rfl⟩
    · exact Or.inl hown
    · exact Or.inr ⟨w, hw, ih w hw hs⟩

/-- The visited node is a node of the lexicon that inlining comes to from `root`, and from what each
open label stands for. -/
structure Grounded (lexicon : Lexicon) (limit : Nat) (root : Regex) (v : Visit) : Prop where
  part : v.node ∈ lexicon.parts
  inlined : ReflTransGen (Regex.Inlines lexicon limit) root v.node
  opened : ∀ name ∈ v.opened, ∃ r, lexicon.Target name r ∧
    ReflTransGen (Regex.Inlines lexicon limit) r v.node

namespace Grounded

/-- The label of the visited node is one of the open labels inside. -/
theorem tag (h : Grounded lexicon limit root v) (hlabels : lexicon.labels.2 = []) :
    ∀ name ∈ v.node.tag.open v.opened, ∃ r, lexicon.Target name r ∧
      ReflTransGen (Regex.Inlines lexicon limit) r v.node := by
  intro name hname
  unfold Tag.open at hname
  split at hname
  · rename_i label hlabel
    rcases List.mem_cons.1 hname with rfl | hname
    · exact ⟨v.node, Lexicon.target_of_mem_parts hlabels h.part hlabel, .refl⟩
    · exact h.opened name hname
  · exact h.opened name hname

/-- A visit that is made from a grounded visit is grounded. -/
theorem next (h : Grounded lexicon limit root v) (hlabels : lexicon.labels.2 = [])
    (hw : w ∈ v.next (lexicon.scope limit ignoreCase)) : Grounded lexicon limit root w := by
  rcases cases_next hw with ⟨hopened, hpart⟩ | ⟨tag, name, n, hnode, -, hn, rfl⟩
  · have hstep : Regex.Inlines lexicon limit v.node w.node := .part hpart
    refine ⟨Lexicon.mem_parts_of_mem_children h.part
      (Regex.inlined_subset_children _ _ _ hpart), h.inlined.tail hstep, fun name hname => ?_⟩
    rw [hopened] at hname
    obtain ⟨r, htarget, hr⟩ := h.tag hlabels name hname
    exact ⟨r, htarget, hr.tail hstep⟩
  · have htarget : lexicon.Target name n.node :=
      (Lexicon.target_iff_labels hlabels name n.node).2 ⟨n, hn, rfl⟩
    have hstep : Regex.Inlines lexicon limit v.node n.node := by
      rw [hnode]
      exact .ref htarget
    refine ⟨Lexicon.mem_parts_of_target htarget, h.inlined.tail hstep, fun other hother => ?_⟩
    rcases List.mem_cons.1 hother with rfl | hother
    · exact ⟨n.node, htarget, .refl⟩
    · have hinside := h.tag hlabels other
      rw [hnode] at hinside
      obtain ⟨r, htarget', hr⟩ := hinside hother
      exact ⟨r, htarget', hr.tail (hnode ▸ hstep)⟩

/-- Where a reference is found to be recursive, the expression that resolving began with is
endless. -/
theorem endless (h : Grounded lexicon limit root v) (hlabels : lexicon.labels.2 = [])
    (hfound : Recursive (v.result (lexicon.scope limit ignoreCase)).2) :
    root.Endless lexicon limit := by
  induction v using (wellFounded_next (lexicon.scope limit ignoreCase)).induction with
  | _ v ih =>
    rcases (recursive_result _ v).1 hfound with hown | ⟨w, hw, hfound⟩
    · -- The open label stands for a node that the reference leads to, and that leads to it.
      obtain ⟨tag, name, hnode, hopen⟩ := (recursive_own _ v).1 hown
      have hinside := h.tag hlabels name
      rw [hnode] at hinside
      obtain ⟨r, htarget, hr⟩ := hinside hopen
      have hcycle : TransGen (Regex.Inlines lexicon limit) v.node v.node := by
        rw [hnode]
        exact .head' (.ref htarget) hr
      exact (Regex.endless_of_cycle hcycle).of_reflTransGen h.inlined
    · exact ih w hw (h.next hlabels hw) hfound

end Grounded

end Visit

/-- In the expression of a rule a reference is found to be recursive just where inlining the
expression never ends. -/
theorem recursive_resolve_iff {lexicon : Lexicon} {state : LexState} {rule : Rule} {limit : Nat}
    (hlabels : lexicon.labels.2 = []) (hstate : state ∈ lexicon.states) (hrule : rule ∈ state.rules)
    (ignoreCase : Bool) (site : Site) :
    Recursive (rule.regex.resolve (lexicon.scope limit ignoreCase) [] site).2 ↔
      rule.regex.Endless lexicon limit := by
  have hground : Visit.Grounded lexicon limit rule.regex ⟨[], site, rule.regex⟩ := by
    refine ⟨?_, .refl, fun name hname => absurd hname List.not_mem_nil⟩
    refine List.mem_flatMap.2 ⟨state, hstate, List.mem_flatMap.2 ⟨rule, hrule, ?_⟩⟩
    rw [Regex.preorder_eq]
    exact List.mem_cons_self
  exact ⟨hground.endless hlabels, Visit.recursive_of_endless (v := ⟨[], site, rule.regex⟩) hlabels⟩

/-! ### Rules and messages -/

section Rule

variable {env : Environment} {state : LexState} {site : Site} {previous : Option Nat}
  {seen : Bool} {rule : Rule}

/-- Recursion is found in a rule if it is found while its expression is resolved. -/
theorem recursive_resolveRule :
    Recursive (resolveRule env state site previous seen rule).findings ↔
      Recursive (rule.regex.resolve ⟨env.labels, env.limit, rule.ignoreCase⟩ [] site).2 := by
  by_cases heof : rule.regex.isEof = true
  · -- Nothing is found in a rule for the end of the input, which refers to nothing.
    obtain ⟨tag, htag⟩ : ∃ tag, rule.regex = .eof tag := by
      unfold Regex.isEof at heof
      split at heof
      · rename_i tag htag
        exact ⟨tag, htag⟩
      · cases heof
    simp [resolveRule, htag, Regex.isEof, Regex.resolve, Recursive]
  · rw [findings_resolveRule heof]

/-- What is wrong with the rule itself is no recursive reference. -/
theorem recursiveReference_mem_faults_resolveRule :
    (∃ name, .recursiveReference name ∈ (resolveRule env state site previous seen rule).faults) ↔
      Recursive (resolveRule env state site previous seen rule).findings := by
  have hissues : ∀ name, .recursiveReference name ∉
      (resolveRule env state site previous seen rule).issues := fun name hmem =>
    forall_issues_resolveRule (P := (· ≠ .recursiveReference name)) (fun _ _ _ h => nomatch h)
      (fun _ _ h => nomatch h) (fun _ h => nomatch h) (fun _ h => nomatch h) _ hmem rfl
  unfold ResolvedRule.faults Recursive
  simp only [List.mem_append, hissues, false_or, List.mem_map]
  exact ⟨fun ⟨name, f, hf, heq⟩ => ⟨f, hf, name, heq⟩, fun ⟨f, hf, name, heq⟩ => ⟨name, f, hf, heq⟩⟩

end Rule

namespace Lexicon

variable {lexicon : Lexicon} {options : Options}

/-- Among what is wrong with a lexicon is a recursive reference just where inlining some rule never
ends. -/
theorem recursiveReference_mem_faults (hlabels : lexicon.labels.2 = []) :
    (∃ name, .recursiveReference name ∈ lexicon.faults options) ↔
      ∃ state ∈ lexicon.states, ∃ rule ∈ state.rules,
        rule.regex.Endless lexicon options.maxRepetition := by
  -- Labels and names of states are reported for other faults.
  have hnames : ∀ name, .recursiveReference name ∉
      (lexicon.labels.2 ++ lexicon.stateNames.2).map (·.2) := fun name hmem => by
    rw [hlabels, List.nil_append] at hmem
    obtain ⟨x, hx, heq⟩ := List.mem_map.1 hmem
    refine forall_addName (P := (· ≠ .recursiveReference name)) (fun _ h => nomatch h) ?_ x hx heq
    exact fun x hx => absurd hx List.not_mem_nil
  unfold faults
  simp only [List.mem_append, hnames, false_or, List.mem_flatMap]
  constructor
  · rintro ⟨name, s, hs, r, hr, hfault⟩
    obtain ⟨j, hj⟩ := List.getElem?_of_mem hr
    obtain ⟨rule, site, previous, seen, hrule, rfl⟩ := exists_getElem?_resolveRules hj
    have hstate : s.1 ∈ lexicon.states := List.fst_mem_of_mem_zipIdx hs
    have hmem : rule ∈ s.1.rules := List.mem_of_getElem? hrule
    have hfound := recursiveReference_mem_faults_resolveRule.1 ⟨name, hfault⟩
    exact ⟨s.1, hstate, rule, hmem,
      (recursive_resolve_iff hlabels hstate hmem _ site).1 (recursive_resolveRule.1 hfound)⟩
  · rintro ⟨state, hstate, rule, hrule, hendless⟩
    obtain ⟨i, hi⟩ := List.getElem?_of_mem hstate
    obtain ⟨j, hj⟩ := List.getElem?_of_mem hrule
    obtain ⟨site, previous, seen, hr⟩ :=
      Automaton.exists_resolveRule (Builder.ofLexicon lexicon options).env hj
    have hfound : Recursive (resolveRule (Builder.ofLexicon lexicon options).env state site
        previous seen rule).findings := recursive_resolveRule.2
      ((recursive_resolve_iff hlabels hstate hrule rule.ignoreCase site).2 hendless)
    obtain ⟨name, hname⟩ := recursiveReference_mem_faults_resolveRule.2 hfound
    exact ⟨name, (state, i), List.mem_zipIdx_iff_getElem?.2 hi, _, List.mem_of_getElem? hr, hname⟩

end Lexicon

namespace Automaton

/-- The messages that building the automaton adds to those of the lexicon. -/
def added (lexicon : Lexicon) (options : Options) : List Message :=
  (ofLexicon lexicon options).2.messages.toList.drop lexicon.log.messages.size

variable {lexicon : Lexicon} {options : Options}

/-- The messages that are added are those about the rules, and a note. -/
theorem added_eq (options : Options) (hsome : 0 < lexicon.states.length)
    (hmany : lexicon.states.length ≤ maxLexStates) : ∃ text, added lexicon options =
      ((Builder.ofLexicon lexicon options).addStates
        lexicon.states.zipIdx).log.messages.toList ++ [.note text] := by
  unfold added ofLexicon
  simp only [Nat.ne_of_gt hsome, Nat.not_lt.2 hmany, if_false]
  exact ⟨_, Log.drop_messages_push_append lexicon.log _ fun h => nomatch h⟩

/-- The messages tell of a recursive reference just where one is among what is wrong. -/
theorem recursive_added_iff (hsome : 0 < lexicon.states.length)
    (hmany : lexicon.states.length ≤ maxLexStates) :
    (∃ pos name, .error (located pos (Issue.recursiveReference name).text) ∈
        added lexicon options) ↔
      ∃ name, .recursiveReference name ∈ lexicon.faults options := by
  obtain ⟨text, hadded⟩ := added_eq options hsome hmany
  have haccounts := Builder.accounts_ofLexicon lexicon options
  rw [hadded]
  constructor
  · rintro ⟨pos, name, hmem⟩
    rcases List.mem_append.1 hmem with hmem | hmem
    · obtain ⟨issue, hissue, pos', heq⟩ := haccounts.origin _ hmem
      have hsame : issue.message pos' = (Issue.recursiveReference name).message pos := heq.symm
      obtain ⟨name', rfl⟩ := Issue.exists_of_message_eq hsame
      exact ⟨name', hissue⟩
    · cases List.mem_singleton.1 hmem
  · rintro ⟨name, hname⟩
    obtain ⟨pos, hpos⟩ := haccounts.told _ hname
    exact ⟨pos, name, List.mem_append_left _ hpos⟩

/-- Resolving the rules of a lexicon ends, whatever their references refer to. An error for a
recursive reference is logged just where inlining some rule never ends. -/
theorem recursion_detected (lexicon : Lexicon) (options : Options)
    (hsome : 0 < lexicon.states.length) (hmany : lexicon.states.length ≤ maxLexStates)
    (hlabels : (lexicon.parts.filterMap fun node => node.tag.label).Nodup) :
    (∀ state ∈ lexicon.states, ∀ rule ∈ state.rules, ∀ site, ∃ depth, ∀ deeper, depth ≤ deeper →
      Visit.resultWithin (lexicon.scope options.maxRepetition rule.ignoreCase) deeper
          ⟨[], site, rule.regex⟩ =
        some (rule.regex.resolve (lexicon.scope options.maxRepetition rule.ignoreCase) [] site)) ∧
      ((∃ (pos : Option Pos) (name : String),
          .error (located pos s!"recursive reference to <{name}>") ∈ added lexicon options) ↔
        ∃ state ∈ lexicon.states, ∃ rule ∈ state.rules, ∀ depth,
          Regex.inlineWithin lexicon options.maxRepetition depth rule.regex = none) := by
  refine ⟨fun state _ rule _ site => Visit.exists_resultWithin _ _, ?_⟩
  simp only [← Regex.endless_iff]
  exact (recursive_added_iff hsome hmany).trans
    (Lexicon.recursiveReference_mem_faults (Lexicon.labels_eq_nil_iff.2 hlabels))

end Automaton

/-- Round brackets around square ones, around round ones again. -/
def Lexicon.brackets : Lexicon where
  states := [{ name := "main", rules := [
    { ordinal := 0, kind := 1, regex := round },
    { ordinal := 1, kind := 2, regex := square }] }]
where
  round : Regex := .seq { label := some "ROUND" }
    [.literal {} "(", .repeated {} .zeroOrOne (.ref {} "SQUARE"), .literal {} ")"]
  square : Regex := .seq { label := some "SQUARE" }
    [.literal {} "[", .repeated {} .zeroOrOne (.ref {} "ROUND"), .literal {} "]"]

/-- Round brackets are inlined in themselves. -/
theorem Lexicon.endless_round (limit : Nat) : brackets.round.Endless brackets limit := by
  have hinner {r outer : Regex} {name : String} {tag : Tag} {left right : Regex}
      (htarget : brackets.Target name r)
      (houter : outer = .seq tag [left, .repeated {} .zeroOrOne (.ref {} name), right]) :
      TransGen (Regex.Inlines brackets limit) outer r := by
    rw [houter]
    refine .head (.part (List.mem_cons_of_mem _ List.mem_cons_self)) ?_
    exact .head (.part List.mem_cons_self) (.single (.ref htarget))
  have hsquare : brackets.Target "SQUARE" brackets.square := rfl
  have hround : brackets.Target "ROUND" brackets.round := rfl
  exact Regex.endless_of_cycle ((hinner hsquare rfl).trans (hinner hround rfl))

/-- Where a labelled expression refers to itself, the recursion is reported. -/
theorem Automaton.recursion_detected_brackets : 0 < Lexicon.brackets.states.length ∧
    Lexicon.brackets.states.length ≤ maxLexStates ∧
    (Lexicon.brackets.parts.filterMap fun node => node.tag.label).Nodup ∧
    ∃ (pos : Option Pos) (name : String),
      .error (located pos s!"recursive reference to <{name}>") ∈ added .brackets {} := by
  have hlabels : (Lexicon.brackets.parts.filterMap fun node => node.tag.label).Nodup := by decide
  refine ⟨by decide, by decide, hlabels, ?_⟩
  exact (recursion_detected .brackets {} (by decide) (by decide) hlabels).2.2
    ⟨_, List.mem_cons_self, _, List.mem_cons_self,
      Regex.endless_iff.1 (Lexicon.endless_round _)⟩

end Lexwright

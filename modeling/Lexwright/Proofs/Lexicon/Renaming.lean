import Lexwright.Proofs.Automaton.Errors
import Lexwright.Proofs.Lexicon.Labels

/-!
# `Lexwright.Proofs.Lexicon.Renaming`: other names, the same patterns

A renaming gives labels other names, and references the same other names, and likewise for lexical
states. Where neither lexicon has an error, names are unique before and after, so they still stand
for the same nodes and the same lexical states.

* `Regex.rename`, `LexState.rename`: expressions and lexical states under other names.
* `Regex.resolve_rename`: an expression has the same pattern under other names.
* `Lexicon.environment_rename`: what the rules of a lexicon refer to is found under the new names.
* `Lexicon.alike_rulesOf`: the rules of a lexical state contribute the same.
-/

set_option autoImplicit false

namespace Lexwright

variable {ρ σ : String → String}

/-! ### Expressions -/

/-- The tag with its label renamed. -/
def Tag.rename (ρ : String → String) (t : Tag) : Tag := { t with label := t.label.map ρ }

namespace Regex

mutual

/-- The expression with its labels and references renamed. -/
def rename (ρ : String → String) : Regex → Regex
  | chars t negated ranges => chars (t.rename ρ) negated ranges
  | literal t text => literal (t.rename ρ) text
  | choice t rs => choice (t.rename ρ) (renameAll ρ rs)
  | seq t rs => seq (t.rename ρ) (renameAll ρ rs)
  | repeated t count r => repeated (t.rename ρ) count (rename ρ r)
  | eof t => eof (t.rename ρ)
  | ref t name => ref (t.rename ρ) (ρ name)

/-- Several expressions with their labels and references renamed. -/
def renameAll (ρ : String → String) : List Regex → List Regex
  | [] => []
  | r :: rs => rename ρ r :: renameAll ρ rs

end

/-- Renaming an expression renames its tag. -/
@[simp] theorem tag_rename (r : Regex) : (r.rename ρ).tag = r.tag.rename ρ := by
  cases r <;> simp [rename, tag]

/-- Renaming keeps whether an expression is that of the end of input. -/
@[simp] theorem isEof_rename (r : Regex) : (r.rename ρ).isEof = r.isEof := by
  cases r <;> simp [rename, isEof]

mutual

/-- The nodes of a renamed expression are the renamed nodes. -/
theorem preorder_rename : ∀ r : Regex, (r.rename ρ).preorder = r.preorder.map (rename ρ)
  | chars _ _ _ => by simp [rename, preorder]
  | literal _ _ => by simp [rename, preorder]
  | choice _ rs => by simp [rename, preorder, preorderAll_rename rs]
  | seq _ rs => by simp [rename, preorder, preorderAll_rename rs]
  | repeated _ _ r => by simp [rename, preorder, preorder_rename r]
  | eof _ => by simp [rename, preorder]
  | ref _ _ => by simp [rename, preorder]

/-- The nodes of renamed expressions are the renamed nodes. -/
theorem preorderAll_rename : ∀ rs : List Regex,
    preorderAll (renameAll ρ rs) = (preorderAll rs).map (rename ρ)
  | [] => by simp [renameAll, preorderAll]
  | r :: rs => by simp [renameAll, preorderAll, preorder_rename r, preorderAll_rename rs]

end

end Regex

/-! ### Patterns -/

/-- The one scope finds under the new names what the other finds under the old ones. -/
structure Scope.Renames (ρ : String → String) (k k' : Scope) : Prop where
  ignoreCase : k'.ignoreCase = k.ignoreCase
  target : ∀ {name : String} {n : Labelled}, k.labels[name]? = some n →
    ∃ n', k'.labels[ρ name]? = some n' ∧ n'.node = n.node.rename ρ

namespace Regex

variable {k k' : Scope} {opened : List String} {site : Site} {tag : Tag}

/-- A repetition in which only warnings were found has bounds that are right. -/
theorem issue?_of_onlyWarnings {count : Count} {r : Regex}
    (h : OnlyWarnings (resolve k opened site (.repeated tag count r)).2) :
    count.issue? k.limit = none := by
  cases hissue : count.issue? k.limit with
  | none => rfl
  | some issue =>
    rw [resolve, hissue] at h
    exact absurd h (not_onlyWarnings (Count.isWarning_of_issue? hissue))

/-- A reference in which only warnings were found is resolved to a labelled node. -/
theorem exists_of_onlyWarnings {name : String}
    (h : OnlyWarnings (resolve k opened site (.ref tag name)).2) :
    ∃ n, k.labels[name]? = some n ∧ resolve k opened site (.ref tag name) =
      resolve k (name :: tag.open opened) n.site n.node := by
  by_cases hopen : (tag.open opened).contains name = true
  · rw [resolve, dif_pos hopen] at h
    exact absurd h (not_onlyWarnings rfl)
  · cases hnode : k.labels[name]? with
    | none =>
      rw [resolve_ref_of_none hopen hnode] at h
      exact absurd h (not_onlyWarnings rfl)
    | some n => exact ⟨n, rfl, resolve_ref_of_some hopen hnode⟩

/-- An expression has the same pattern under other names, where nothing but warnings is found under
both. Which labels are open, and where the expression stands, makes no difference then. -/
theorem resolve_rename (h : Scope.Renames ρ k k') (opened : List String) (site : Site) (r : Regex)
    (hfound : OnlyWarnings (resolve k opened site r).2) (opened' : List String) (site' : Site)
    (hfound' : OnlyWarnings (resolve k' opened' site' (r.rename ρ)).2) :
    (resolve k' opened' site' (r.rename ρ)).1 = (resolve k opened site r).1 := by
  revert opened' site' hfound'
  refine resolve_induction
    (P := fun r p => ∀ opened' site', OnlyWarnings (resolve k' opened' site' (r.rename ρ)).2 →
      (resolve k' opened' site' (r.rename ρ)).1 = p)
    (Q := fun rs ps => ∀ opened' site' i',
      OnlyWarnings (resolveAll k' opened' site' i' (renameAll ρ rs)).2 →
        (resolveAll k' opened' site' i' (renameAll ρ rs)).1 = ps)
    ?chars ?literal ?choice ?seq ?never ?repeated ?ref ?nil ?cons hfound
  case chars =>
    intro tag negated ranges _ opened' site' _
    rw [rename, resolve]
    simp only [Scope.classSet, h.ignoreCase]
  case literal =>
    intro tag text opened' site' _
    have hchar : k'.charSet = k.charSet := funext fun c => by
      simp only [Scope.charSet, h.ignoreCase]
    rw [rename, resolve, hchar]
  case choice =>
    intro tag rs ps ih opened' site' hfound'
    rw [rename, resolve] at hfound' ⊢
    exact congrArg Pattern.choice (ih _ _ _ hfound')
  case seq =>
    intro tag rs ps ih opened' site' hfound'
    rw [rename, resolve] at hfound' ⊢
    exact congrArg Pattern.seq (ih _ _ _ hfound')
  case never =>
    intro tag count r _ hnever opened' site' hfound'
    rw [rename] at hfound' ⊢
    rw [resolve, issue?_of_onlyWarnings hfound']
    simp only [hnever, if_true]
  case repeated =>
    intro tag count r p _ hnever ih opened' site' hfound'
    rw [rename] at hfound' ⊢
    have hissue' := issue?_of_onlyWarnings hfound'
    rw [resolve, hissue'] at hfound' ⊢
    simp only [hnever, Bool.false_eq_true, if_false] at hfound' ⊢
    exact congrArg (Pattern.repeated count) (ih _ _ hfound')
  -- Under its new name the reference leads to the renamed node.
  case ref =>
    intro tag name n p hn ih opened' site' hfound'
    rw [rename] at hfound' ⊢
    obtain ⟨n', hn', heq⟩ := exists_of_onlyWarnings hfound'
    obtain ⟨renamed, hrenamed, hnode⟩ := h.target hn
    rw [hn'] at hrenamed
    cases hrenamed
    rw [heq, hnode] at hfound' ⊢
    exact ih _ _ hfound'
  case nil =>
    intro opened' site' i' _
    rw [renameAll, resolveAll]
  case cons =>
    intro r rs p ps ih ih' opened' site' i' hfound'
    rw [renameAll, resolveAll] at hfound' ⊢
    obtain ⟨hfirst', hrest'⟩ := onlyWarnings_append.1 hfound'
    exact congrArg₂ List.cons (ih _ _ hfirst') (ih' _ _ _ hrest')

end Regex

/-! ### Rules -/

/-- The rule with its expression renamed, and with the new name of the lexical state that it
enters. -/
def Rule.rename (ρ σ : String → String) (r : Rule) : Rule :=
  { r with regex := r.regex.rename ρ, nextState := r.nextState.map σ }

/-- The one environment finds under the new names what the other finds under the old ones. -/
structure Environment.Renames (ρ σ : String → String) (env env' : Environment) : Prop where
  target : ∀ {name : String} {n : Labelled}, env.labels[name]? = some n →
    ∃ n', env'.labels[ρ name]? = some n' ∧ n'.node = n.node.rename ρ
  stateId : ∀ {name : String} {id : Nat}, env.stateIds[name]? = some id →
    env'.stateIds[σ name]? = some id

/-- The rules contribute the same, and the one is the other under new names. -/
structure ResolvedRule.Alike (ρ σ : String → String) (r r' : ResolvedRule) : Prop where
  rule : r'.rule = r.rule.rename ρ σ
  pos : r'.pos = r.pos
  nextState : r'.nextState = r.nextState
  pattern : r'.pattern = r.pattern

section Rules

variable {env env' : Environment} {state state' : LexState}

/-- A renamed rule is resolved alike where nothing is reported for either. -/
theorem alike_resolveRule (h : Environment.Renames ρ σ env env') (hpos : state'.pos = state.pos)
    {site site' : Site} {previous previous' : Option Nat} {seen seen' : Bool} {rule : Rule}
    (hsound : (resolveRule env state site previous seen rule).Sound)
    (hsound' : (resolveRule env' state' site' previous' seen' (rule.rename ρ σ)).Sound) :
    ResolvedRule.Alike ρ σ (resolveRule env state site previous seen rule)
      (resolveRule env' state' site' previous' seen' (rule.rename ρ σ)) := by
  constructor
  case rule => simp
  case pos => simp [Rule.rename, Tag.rename, hpos]
  case nextState =>
    rw [nextState_resolveRule, nextState_resolveRule]
    cases hnext : rule.nextState with
    | none => simp [Rule.rename, hnext]
    | some next =>
      obtain ⟨id, hid⟩ := exists_of_resolveNext hnext (issues_resolveRule hsound.issues).2.1
      simp [Rule.rename, hnext, hid, h.stateId hid]
  case pattern =>
    rw [pattern_resolveRule, pattern_resolveRule]
    simp only [Rule.rename, Regex.isEof_rename, Regex.tag_rename, Tag.rename]
    split
    · rfl
    · rename_i hvisible
      have heof := (not_or.1 hvisible).1
      have hfound := hsound.findings
      have hfound' := hsound'.findings
      rw [findings_resolveRule heof] at hfound
      rw [findings_resolveRule (by simpa [Rule.rename] using heof)] at hfound'
      -- Labels stand for the renamed nodes, so that the pattern comes out the same.
      have hscope : Scope.Renames ρ ⟨env.labels, env.limit, rule.ignoreCase⟩
          ⟨env'.labels, env'.limit, rule.ignoreCase⟩ := ⟨rfl, h.target⟩
      exact congrArg some (Regex.resolve_rename hscope _ _ _ hfound _ _ hfound')

/-- Renamed rules are resolved alike, one by one. -/
theorem alike_resolveRules (h : Environment.Renames ρ σ env env') (hpos : state'.pos = state.pos)
    {index i : Nat} {previous : Option Nat} {seen : Bool} {rules : List Rule}
    (hsound : ∀ r ∈ resolveRules env state index i previous seen rules, r.Sound)
    (hsound' : ∀ r ∈ resolveRules env' state' index i previous seen
      (rules.map (Rule.rename ρ σ)), r.Sound) :
    List.Forall₂ (ResolvedRule.Alike ρ σ) (resolveRules env state index i previous seen rules)
      (resolveRules env' state' index i previous seen (rules.map (Rule.rename ρ σ))) := by
  induction rules generalizing i previous seen with
  | nil => exact .nil
  | cons rule rest ih =>
    have hseen : (rule.rename ρ σ).regex.isEof = rule.regex.isEof := Regex.isEof_rename _
    simp only [List.map_cons, resolveRules, hseen] at hsound hsound' ⊢
    refine .cons ?_ (ih ?_ ?_)
    · exact alike_resolveRule h hpos (hsound _ List.mem_cons_self) (hsound' _ List.mem_cons_self)
    · exact fun r hr => hsound r (List.mem_cons_of_mem _ hr)
    · exact fun r hr => hsound' r (List.mem_cons_of_mem _ hr)

end Rules

/-! ### Lexicons -/

/-- The lexical state with its rules renamed, and itself under a new name. -/
def LexState.rename (ρ σ : String → String) (s : LexState) : LexState :=
  { s with name := σ s.name, rules := s.rules.map (Rule.rename ρ σ) }

namespace Lexicon

variable {lexicon lexicon' : Lexicon} {options options' : Options}

/-- The parts of a renamed lexicon are the renamed parts. -/
theorem parts_rename (hstates : lexicon'.states = lexicon.states.map (LexState.rename ρ σ)) :
    lexicon'.parts = lexicon.parts.map (Regex.rename ρ) := by
  simp [parts, hstates, LexState.rename, Rule.rename, List.flatMap_map, List.map_flatMap,
    Regex.preorder_rename]

/-- A renamed lexicon in which no label and no name is reported finds everything under the new
names. -/
theorem environment_rename (hstates : lexicon'.states = lexicon.states.map (LexState.rename ρ σ))
    (h : lexicon.Sound options) (h' : lexicon'.Sound options') :
    Environment.Renames ρ σ (Builder.ofLexicon lexicon options).env
      (Builder.ofLexicon lexicon' options').env := by
  constructor
  case target =>
    intro name n hn
    obtain ⟨hpart, hlabel⟩ := (mem_labels_iff h.labels).1 ⟨n, hn, rfl⟩
    refine (mem_labels_iff h'.labels).2 ⟨?_, by simp [Tag.rename, hlabel]⟩
    rw [parts_rename hstates]
    exact List.mem_map_of_mem hpart
  case stateId =>
    intro name id hid
    have hfind := (getElem?_stateNames lexicon name).symm.trans hid
    obtain ⟨hlt, hname, -⟩ := List.findIdx?_eq_some_iff_getElem.1 hfind
    refine (getElem?_stateNames lexicon' (σ name)).trans ?_
    have hnames := nodup_names h'.names
    simp only [hstates, List.map_map] at hnames ⊢
    refine List.findIdx?_eq_some_iff_getElem.2 ⟨by simpa using hlt, ?_, fun j hj => ?_⟩
    · simpa [LexState.rename] using congrArg σ (of_decide_eq_true hname)
    · -- the new names are unique too, so no lexical state before this one has its name
      intro hsame
      have hne := List.pairwise_iff_getElem.1 hnames j id (by simp; omega) (by simpa using hlt) hj
      simp only [List.getElem_map, Function.comp_apply, decide_eq_true_eq] at hne hsame
      refine hne (hsame.trans ?_)
      simp [LexState.rename, of_decide_eq_true hname]

/-- The rules of a lexical state contribute the same under other names. -/
theorem alike_rulesOf (hstates : lexicon'.states = lexicon.states.map (LexState.rename ρ σ))
    (h : lexicon.Sound options) (h' : lexicon'.Sound options') {i : Nat} {state : LexState}
    (hstate : lexicon.states[i]? = some state) :
    List.Forall₂ (ResolvedRule.Alike ρ σ)
      (Builder.rulesOf (Builder.ofLexicon lexicon options).env i state)
      (Builder.rulesOf (Builder.ofLexicon lexicon' options').env i (state.rename ρ σ)) := by
  have hstate' : lexicon'.states[i]? = some (state.rename ρ σ) := by simp [hstates, hstate]
  have hpos : (state.rename ρ σ).pos = state.pos := rfl
  exact alike_resolveRules (environment_rename hstates h h') hpos (h.rules i state hstate)
    (h'.rules i _ hstate')

end Lexicon

end Lexwright

import Lexwright.Proofs.Automaton.Implements

/-!
# `Lexwright.Proofs.Lexicon.Validation`: what is right in a lexicon without errors

Faults of an expression are found while its pattern is made. So they are found in what the pattern
is made of: the parts of the expression, and the expressions that references stand for. A repetition
that allows no copy is made of nothing, and what it repeats is not looked at
(`Lexicon.hollow_not_checked`).

* `Regex.Reaches`: what the pattern of an expression is made of.
* `Regex.Proper`: nothing is wrong with a node itself.
* `Regex.proper_of_reaches`: where only warnings were found, every node that is reached is proper.
* `Lexicon.Valid`: all that is right in a lexicon.
* `Lexicon.Valid.proper_parts`: where every repetition allows a copy, every part is proper.
* `Lexicon.valid_of_builtCleanly`: both hold of a lexicon in which no error is found.
-/

set_option autoImplicit false

namespace Lexwright

/-! ### Nodes -/

namespace Regex

variable {target : String → Regex → Prop} {limit : Nat} {r node : Regex}

/-- Whether the node is a repetition that allows no copy. -/
def isHollow : Regex → Bool
  | repeated _ count _ => count.isNever
  | _ => false

/-- The parts of a node that are copied. -/
def copied (r : Regex) : List Regex := if r.isHollow then [] else r.children

/-- What an expression is made of: its copied parts, and what its references stand for. -/
inductive Reaches (target : String → Regex → Prop) : Regex → Regex → Prop where
  | refl (r : Regex) : Reaches target r r
  | part {r part node : Regex} (hpart : part ∈ r.copied) (h : Reaches target part node) :
      Reaches target r node
  | ref {tag : Tag} {name : String} {r node : Regex} (htarget : target name r)
      (h : Reaches target r node) : Reaches target (.ref tag name) node

/-- Nothing is wrong with the node itself. The end of the input is never right inside of an
expression. -/
def Proper (target : String → Regex → Prop) (limit : Nat) : Regex → Prop
  | chars _ _ ranges => ∀ range ∈ ranges, range.1.toNat ≤ range.2.toNat
  | repeated _ (.range least most) _ => (∀ m ∈ most, least ≤ m) ∧ most.getD least ≤ limit
  | eof _ => False
  | ref _ name => ∃ r, target name r
  | _ => True

/-- A range that ends before it starts would be reported. -/
theorem le_of_invalidRanges {ranges : List (Char × Char)}
    (h : ∀ issue ∈ invalidRanges ranges, issue.isWarning = true) :
    ∀ range ∈ ranges, range.1.toNat ≤ range.2.toNat := by
  intro range hrange
  by_contra hlt
  have hmem : Issue.invalidRange range.1 range.2 ∈ invalidRanges ranges :=
    List.mem_map.2 ⟨range, List.mem_filter.2 ⟨hrange, by simpa using hlt⟩, rfl⟩
  exact absurd (h _ hmem) Bool.false_ne_true

/-- Bounds that are in the wrong order or too large would be reported. -/
theorem proper_repeated {tag : Tag} {count : Count} (h : count.issue? limit = none) :
    Proper target limit (.repeated tag count r) := by
  cases count with
  | range least most =>
    cases most with
    | none =>
      simp only [Count.issue?, ite_eq_right_iff, reduceCtorEq, imp_false, Nat.not_lt] at h
      exact ⟨fun m hm => absurd hm (Option.not_mem_none m), h⟩
    | some most =>
      have hle : least ≤ most := Count.proper_of_issue? h
      simp only [Count.issue?, if_neg (Nat.not_lt.2 hle), ite_eq_right_iff, reduceCtorEq, imp_false,
        Nat.not_lt] at h
      refine ⟨fun m hm => ?_, h⟩
      cases hm
      exact hle
  | oneOrMore => trivial
  | zeroOrMore => trivial
  | zeroOrOne => trivial

/-- An expression is proper throughout if it is proper itself, and its copied parts and what it
stands for are proper throughout. -/
theorem proper_of_parts (hself : r.Proper target limit)
    (hparts : ∀ part ∈ r.copied, ∀ node, part.Reaches target node → node.Proper target limit)
    (href : ∀ tag name t, r = .ref tag name → target name t → ∀ node, t.Reaches target node →
      node.Proper target limit) :
    ∀ node, r.Reaches target node → node.Proper target limit := by
  intro node h
  cases h with
  | refl => exact hself
  | part hpart h => exact hparts _ hpart node h
  | ref htarget h => exact href _ _ _ rfl htarget node h

variable {k : Scope}

/-- Where only warnings were found in an expression, every node that is reached from it is
proper. -/
theorem proper_of_reaches
    (htarget : ∀ name r, target name r ↔ ∃ n, k.labels[name]? = some n ∧ n.node = r)
    (opened : List String) (site : Site) (r : Regex)
    (hfound : OnlyWarnings (resolve k opened site r).2) :
    ∀ node, r.Reaches target node → node.Proper target k.limit := by
  refine resolve_induction (P := fun r _ => ∀ node, r.Reaches target node → node.Proper target k.limit)
    (Q := fun rs _ => ∀ r ∈ rs, ∀ node, r.Reaches target node → node.Proper target k.limit)
    ?chars ?literal ?choice ?seq ?never ?repeated ?ref ?nil ?cons hfound
  case chars =>
    intro tag negated ranges hranges
    exact proper_of_parts (le_of_invalidRanges hranges)
      (fun part hpart => absurd hpart List.not_mem_nil) (fun _ _ _ h => by cases h)
  case literal =>
    intro tag text
    exact proper_of_parts trivial (fun part hpart => absurd hpart List.not_mem_nil)
      (fun _ _ _ h => by cases h)
  case choice =>
    intro tag rs ps hparts
    exact proper_of_parts trivial hparts (fun _ _ _ h => by cases h)
  case seq =>
    intro tag rs ps hparts
    exact proper_of_parts trivial hparts (fun _ _ _ h => by cases h)
  -- Nothing inside is reached where no copy is made.
  case never =>
    intro tag count r hissue hnever
    refine proper_of_parts (proper_repeated hissue) (fun part hpart => ?_) (fun _ _ _ h => by cases h)
    simp [copied, isHollow, hnever] at hpart
  case repeated =>
    intro tag count r p hissue hnever hproper
    refine proper_of_parts (proper_repeated hissue) (fun part hpart => ?_) (fun _ _ _ h => by cases h)
    simp only [copied, isHollow, children, hnever, Bool.false_eq_true, if_false,
      List.mem_singleton] at hpart
    rw [hpart]
    exact hproper
  -- What is reached is reached from the labelled node.
  case ref =>
    intro tag name n p hn hproper
    refine proper_of_parts ⟨n.node, (htarget name _).2 ⟨n, hn, rfl⟩⟩
      (fun part hpart => absurd hpart List.not_mem_nil) (fun tag' name' t hr ht => ?_)
    cases hr
    obtain ⟨n', hn', rfl⟩ := (htarget name t).1 ht
    rw [hn] at hn'
    cases hn'
    exact hproper
  case nil =>
    intro r hr
    exact absurd hr List.not_mem_nil
  case cons =>
    intro r rs p ps hfirst hrest
    exact List.forall_mem_cons.2 ⟨hfirst, hrest⟩

/-- An expression is no larger than the list that it is in. -/
theorem size_le_sizeAll {rs : List Regex} (h : r ∈ rs) : r.size ≤ sizeAll rs := by
  induction rs with
  | nil => cases h
  | cons s rs ih =>
    rw [sizeAll]
    rcases List.mem_cons.1 h with rfl | h
    · exact Nat.le_add_right ..
    · exact Nat.le_trans (ih h) (Nat.le_add_left ..)

/-- Where every repetition allows a copy, every part of an expression is reached from it. -/
theorem reaches_of_mem_preorder (hhollow : ∀ node ∈ r.preorder, node.isHollow = false)
    (hnode : node ∈ r.preorder) : r.Reaches target node := by
  induction hsize : r.size using Nat.strongRecOn generalizing r with
  | ind size ih =>
    rw [preorder_eq] at hhollow hnode
    rcases List.mem_cons.1 hnode with rfl | hnode
    · exact .refl _
    · obtain ⟨part, hpart, hnode⟩ := List.mem_flatMap.1 hnode
      have hlt : part.size < size := by
        rw [← hsize, size_eq r]
        exact Nat.lt_succ_of_le (size_le_sizeAll hpart)
      have hlater : ∀ node ∈ part.preorder, node.isHollow = false := fun node' hnode' =>
        hhollow node' (List.mem_cons_of_mem _ (List.mem_flatMap.2 ⟨part, hpart, hnode'⟩))
      have hcopied : part ∈ r.copied := by
        rw [copied, hhollow r List.mem_cons_self]
        exact hpart
      exact .part hcopied (ih part.size hlt hlater hnode rfl)

end Regex

/-! ### Rules and lexicons -/

/-- All that is right in a rule: the lexical state that it enters exists, the kind of the token for
the end of the input is left to that token, and what its expression is made of is proper. -/
structure Rule.Valid (lexicon : Lexicon) (options : Options) (rule : Rule) : Prop where
  nextState : ∀ name ∈ rule.nextState, ∃ state ∈ lexicon.states, state.name = name
  kind : rule.regex.isEof = false → rule.regex.tag.hidden = false →
    rule.category = .token ∨ rule.category = .special → rule.kind ≠ eofKind
  nodes : rule.regex.isEof = false → ∀ node, rule.regex.Reaches lexicon.Target node →
    node.Proper lexicon.Target options.maxRepetition

/-- All that is right in a lexicon: labels and names are unique, the rules of each lexical state are
right and in order, and at most one of them stands for the end of the input. -/
structure Lexicon.Valid (lexicon : Lexicon) (options : Options) : Prop where
  labels : (lexicon.parts.filterMap fun node => node.tag.label).Nodup
  names : (lexicon.states.map (·.name)).Nodup
  rules : ∀ state ∈ lexicon.states, ∀ rule ∈ state.rules, rule.Valid lexicon options
  ordinals : ∀ state ∈ lexicon.states, state.rules.Pairwise fun a b => a.ordinal < b.ordinal
  eofRule : ∀ state ∈ lexicon.states,
    state.rules.Pairwise fun a b => ¬(a.regex.isEof = true ∧ b.regex.isEof = true)

/-- A rule that returns tokens of the reserved kind would be reported. -/
theorem ne_eofKind_of_issues {env : Environment} {state : LexState} {site : Site}
    {previous : Option Nat} {seen : Bool} {rule : Rule}
    (h : (resolveRule env state site previous seen rule).issues = [])
    (heof : rule.regex.isEof = false) (hhidden : rule.regex.tag.hidden = false)
    (hcategory : rule.category = .token ∨ rule.category = .special) : rule.kind ≠ eofKind := by
  intro hkind
  have hchannel : rule.category.channel?.isSome = true := by
    rcases hcategory with hcategory | hcategory <;> rw [hcategory] <;> rfl
  obtain ⟨-, -, hissues⟩ := issues_resolveRule_eq_nil_iff.1 h
  exact (kindIssues_eq_nil_iff.1 hissues).2 heof hhidden ⟨hkind, hchannel⟩

namespace Lexicon

variable {lexicon : Lexicon} {options : Options} {state : LexState} {rule : Rule}

/-- In a sound lexicon every rule is valid. -/
theorem Sound.valid_rule (h : lexicon.Sound options) (hstate : state ∈ lexicon.states)
    (hrule : rule ∈ state.rules) : rule.Valid lexicon options := by
  obtain ⟨i, hi⟩ := List.getElem?_of_mem hstate
  obtain ⟨j, hj⟩ := List.getElem?_of_mem hrule
  obtain ⟨site, previous, seen, hr⟩ := Automaton.exists_resolveRule
    (Builder.ofLexicon lexicon options).env hj
  have hsound := h.rules i state hi _ (List.mem_of_getElem? hr)
  refine ⟨fun name hname => ?_, ne_eofKind_of_issues hsound.issues, fun heof => ?_⟩
  · obtain ⟨id, hid⟩ := exists_of_resolveNext hname (issues_resolveRule hsound.issues).2.1
    have hfind := (getElem?_stateNames lexicon name).symm.trans hid
    obtain ⟨hlt, hname, -⟩ := List.findIdx?_eq_some_iff_getElem.1 hfind
    exact ⟨_, List.getElem_mem hlt, of_decide_eq_true hname⟩
  · have hfindings := hsound.findings
    rw [findings_resolveRule (Bool.eq_false_iff.1 heof)] at hfindings
    exact Regex.proper_of_reaches (target_iff_labels h.labels) _ _ _ hfindings

/-- In a sound lexicon all is right. -/
theorem Sound.valid (h : lexicon.Sound options) : lexicon.Valid options := by
  have hissues : ∀ state ∈ lexicon.states, ∃ i,
      ∀ r ∈ Builder.rulesOf (Builder.ofLexicon lexicon options).env i state, r.issues = [] := by
    intro state hstate
    obtain ⟨i, hi⟩ := List.getElem?_of_mem hstate
    exact ⟨i, fun r hr => (h.rules i state hi r hr).issues⟩
  constructor
  case labels => exact nodup_labels h.labels
  case names => exact nodup_names h.names
  case rules =>
    intro state hstate rule hrule
    exact h.valid_rule hstate hrule
  case ordinals =>
    intro state hstate
    obtain ⟨i, hi⟩ := hissues state hstate
    exact (ordinals_increase hi).1
  case eofRule =>
    intro state hstate
    obtain ⟨i, hi⟩ := hissues state hstate
    exact (isEof_unique hi).1

/-- Where every repetition of a valid lexicon allows a copy, every part of a rule is proper, unless
the rule stands for the end of the input. -/
theorem Valid.proper_parts (h : lexicon.Valid options)
    (hhollow : ∀ node ∈ lexicon.parts, node.isHollow = false)
    (hstate : state ∈ lexicon.states) (hrule : rule ∈ state.rules)
    (heof : rule.regex.isEof = false) {node : Regex} (hnode : node ∈ rule.regex.preorder) :
    node.Proper lexicon.Target options.maxRepetition := by
  have hparts : ∀ node ∈ rule.regex.preorder, node.isHollow = false := by
    intro node hnode
    refine hhollow node (List.mem_flatMap.2 ⟨state, hstate, ?_⟩)
    exact List.mem_flatMap.2 ⟨rule, hrule, hnode⟩
  exact (h.rules state hstate rule hrule).nodes heof node
    (Regex.reaches_of_mem_preorder hparts hnode)

/-- Validation finds everything except for what stands in a repetition that allows no copy: in a
lexicon whose automaton is built without an error, labels and names are unique, every lexical state
has its rules in order and at most one for the end of the input, every lexical state that is entered
exists, and every node that is reached from a rule is proper. Where every repetition allows a copy,
these are all the parts of the rules. -/
theorem valid_of_builtCleanly (h : Automaton.BuiltCleanly lexicon options) :
    lexicon.Valid options ∧ ((∀ node ∈ lexicon.parts, node.isHollow = false) →
      ∀ state ∈ lexicon.states, ∀ rule ∈ state.rules, rule.regex.isEof = false →
        ∀ node ∈ rule.regex.preorder, node.Proper lexicon.Target options.maxRepetition) := by
  obtain ⟨-, hsound⟩ := Automaton.ofLexicon_eq h
  refine ⟨hsound.valid, fun hhollow state hstate rule hrule heof node hnode => ?_⟩
  exact hsound.valid.proper_parts hhollow hstate hrule heof hnode

/-- In the sample lexicon every repetition allows a copy, so all its parts are proper. -/
theorem valid_of_builtCleanly_words : Automaton.BuiltCleanly words Options.quiet ∧
    (∀ node ∈ words.parts, node.isHollow = false) ∧ words.Valid Options.quiet ∧
    ∀ state ∈ words.states, ∀ rule ∈ state.rules, rule.regex.isEof = false →
      ∀ node ∈ rule.regex.preorder, node.Proper words.Target Options.quiet.maxRepetition := by
  have hbuilt := Automaton.builtCleanly_of_hasNoErrors rfl hasNoErrors_words
  have hhollow : ∀ node ∈ words.parts, node.isHollow = false := by decide
  obtain ⟨hvalid, hproper⟩ := valid_of_builtCleanly hbuilt
  exact ⟨hbuilt, hhollow, hvalid, hproper hhollow⟩

/-- A rule that repeats a reference not at all. The reference is to nothing. -/
def hollow : Lexicon where
  states := [{ name := "main", rules := [
    { ordinal := 0, kind := 1, regex := .repeated {} (.range 0 (some 0)) (.ref {} "NOPE") }] }]

set_option maxRecDepth 100000 in
/-- The hollow lexicon is built cleanly. -/
theorem builtCleanly_hollow : Automaton.BuiltCleanly hollow {} := by
  cbv

/-- The automaton of `hollow` is built without an error, although a reference in it is to a label
that no node carries. -/
theorem hollow_not_checked : Automaton.BuiltCleanly hollow {} ∧
    Regex.ref {} "NOPE" ∈ hollow.parts ∧ ∀ node ∈ hollow.parts, node.tag.label ≠ some "NOPE" := by
  refine ⟨builtCleanly_hollow, List.mem_cons_of_mem _ List.mem_cons_self, ?_⟩
  decide

end Lexicon

end Lexwright

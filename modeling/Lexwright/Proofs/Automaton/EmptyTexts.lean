import Lexwright.Automaton.Diagnostics
import Lexwright.Proofs.Automaton.Reach
import Lexwright.Proofs.LongestMatch

/-!
# `Lexwright.Proofs.Automaton.EmptyTexts`: exactly the rules that have the empty text are reported

A rule has the empty text if its fragment can be left without a character. That is a question of
jumps, and what a fragment can be left with is known from `Automaton.fragment_recognizes`, for
every kind of expression at once.

* `Lexicon.matchesEmpty`: the warning about a rule.
* `Automaton.exit_mem_reach_iff`: jumps lead through a fragment exactly if its rule has the empty
  text.
* `Engine.emptyMatches_eq`: the warnings, by the numbers of the rules.
* `Engine.empty_warns`: the warnings about a lexicon.
-/

set_option autoImplicit false

namespace Lexwright

/-- The warning that a rule has the empty text. Where the rule has no position, it shows that of
its lexical state. -/
def Lexicon.matchesEmpty (lexicon : Lexicon) (i : Nat) (rule : Rule) : Message :=
  (Issue.matchesEmpty rule.name).message
    (rule.regex.tag.pos.or (lexicon.states[i]? >>= LexState.pos))

/-! ### One rule -/

namespace Automaton

variable {a : Automaton} {lexicon : Lexicon} {id i : Nat} {rule : Rule} {info : RuleInfo}

/-- Jumps lead through the fragment of a rule exactly if the rule has the empty text. -/
theorem exit_mem_reach_iff (h : a.Implements lexicon)
    (hrule : lexicon.numbered[id]? = some (i, rule)) (hinfo : a.rules[id]? = some info)
    {entry exit : Nat} (hfragment : info.fragment = some (entry, exit)) :
    exit ∈ a.reach entry ↔ rule.Matches lexicon [] := by
  obtain ⟨hexit, hpath⟩ := h.fragment hrule hinfo hfragment
  have haccepts : (a.accept? exit).isSome := by
    rw [hexit]
    rfl
  have hlt : exit < a.states.size := Important.lt_size (Or.inr haccepts)
  rw [mem_reach, hpath haccepts]
  constructor
  · exact fun ⟨_, _, hempty⟩ => hempty
  · exact fun hempty => ⟨hlt, rfl, hempty⟩

/-- The rule with this number and its lexical state, if jumps lead through its fragment. -/
def skipped? (a : Automaton) (lexicon : Lexicon) (id : Nat) : Option (Nat × Nat × Rule) := do
  let (i, rule) ← lexicon.numbered[id]?
  let info ← a.rules[id]?
  let (entry, exit) ← info.fragment
  if exit ∈ a.reach entry then some (id, i, rule) else none

/-- The rule of a state is skipped exactly if it is a visible rule that matches the empty text. -/
theorem skipped?_eq_some_iff (h : a.Implements lexicon) {id' : Nat} :
    a.skipped? lexicon id = some (id', i, rule) ↔ id = id' ∧ lexicon.Lexeme i id rule [] := by
  unfold skipped?
  simp only [Option.bind_eq_bind, Option.bind_eq_some_iff, Option.ite_none_right_eq_some,
    Option.some.injEq, Prod.mk.injEq, Prod.exists]
  constructor
  · rintro ⟨_, _, hrule, info, hinfo, entry, exit, hfragment, hreach, rfl, rfl, rfl⟩
    obtain ⟨info', hinfo', -, -, -, -, -, hsome⟩ := h.rule hrule
    rw [hinfo] at hinfo'
    cases hinfo'
    obtain ⟨hnotEof, hvisible⟩ := hsome.1 (Option.isSome_of_eq_some hfragment)
    exact ⟨rfl, hrule, hnotEof, hvisible, (exit_mem_reach_iff h hrule hinfo hfragment).1 hreach⟩
  · rintro ⟨rfl, hlexeme⟩
    obtain ⟨info, hinfo, -, -, -, -, -, hsome⟩ := h.rule hlexeme.numbered
    obtain ⟨⟨entry, exit⟩, hfragment⟩ :=
      Option.isSome_iff_exists.1 (hsome.2 ⟨hlexeme.notEof, hlexeme.visible⟩)
    exact ⟨i, rule, hlexeme.numbered, info, hinfo, entry, exit, hfragment,
      (exit_mem_reach_iff h hlexeme.numbered hinfo hfragment).2 hlexeme.matches_, rfl, rfl, rfl⟩

end Automaton

/-! ### A rule that consists of what can be left out -/

namespace Lexicon

/-- The first rule is hidden, and the others refer to it. What they refer to can be left out, but
in the last rule another character is left. -/
def digits : Lexicon where
  states := [main]
where
  digit : Regex := .repeated { label := some "DIGIT", hidden := true } .zeroOrOne (.literal {} "0")
  upToTwo : Rule :=
    { ordinal := 1, kind := 2,
      regex := .seq { label := some "DIGITS" } [.ref {} "DIGIT", .ref {} "DIGIT"] }
  hashed : Rule :=
    { ordinal := 2, kind := 3, regex := .seq {} [.ref {} "DIGIT", .literal {} "#"] }
  main : LexState :=
    { name := "main", rules := [{ ordinal := 0, kind := 1, regex := digit }, upToTwo, hashed] }

/-- The labels of the sample, each with its first occurrence. -/
theorem labels_digits : digits.labels =
    (((∅ : Labels).insert "DIGIT" ⟨⟨0, 0, []⟩, digits.digit⟩).insert "DIGITS"
      ⟨⟨0, 1, []⟩, digits.upToTwo.regex⟩, []) := by
  simp [labels, nodes, digits, digits.main, digits.digit, digits.upToTwo, digits.hashed,
    Regex.nodes, Regex.walk, Regex.Located.children, Regex.children, addLabel, Regex.tag]

/-- The rules of the sample are sound. -/
theorem sound_digits : digits.Sound .quiet := by
  refine sound_of_single rfl (by rw [labels_digits]) ?_
  have hlabel : (Builder.ofLexicon digits .quiet).env.labels["DIGIT"]? =
      some ⟨⟨0, 0, []⟩, digits.digit⟩ := by
    simp [Builder.ofLexicon, labels_digits, Std.HashMap.getElem_insert]
  generalize (Builder.ofLexicon digits .quiet).env = env at hlabel
  have hdigit : ∀ opened site, (Regex.resolve ⟨env.labels, env.limit, false⟩ opened site
      (.repeated { label := some "DIGIT", hidden := true } .zeroOrOne (.literal {} "0"))).2 =
        [] := fun opened site => by simp [Regex.resolve, Count.issue?, Count.isNever]
  have href : ∀ opened site, ¬"DIGIT" ∈ opened →
      (Regex.resolve ⟨env.labels, env.limit, false⟩ opened site (.ref {} "DIGIT")).2 = [] := by
    intro opened site hopen
    rw [Regex.resolve_ref_of_some (by simpa [Tag.open] using hopen) hlabel]
    exact hdigit _ _
  have hupToTwo : ∀ site, (Regex.resolve ⟨env.labels, env.limit, false⟩ [] site
      (.seq { label := some "DIGITS" } [.ref {} "DIGIT", .ref {} "DIGIT"])).2 = [] := by
    intro site
    rw [Regex.resolve, Regex.resolveAll, Regex.resolveAll, Regex.resolveAll]
    simp [href, Tag.open]
  have hhashed : ∀ site, (Regex.resolve ⟨env.labels, env.limit, false⟩ [] site
      (.seq {} [.ref {} "DIGIT", .literal {} "#"])).2 = [] := by
    intro site
    rw [Regex.resolve, Regex.resolveAll, Regex.resolveAll, Regex.resolveAll, Regex.resolve]
    simp [href, Tag.open]
  simp [Builder.rulesOf, digits.main, digits.digit, digits.upToTwo, digits.hashed, resolveRules,
    resolveRule, ordinalIssues, resolveNext, Regex.isEof, Regex.tag, eofKind, hdigit, hupToTwo,
    hhashed]

/-- The only rule to be reported is the one that consists of what can be left out. -/
theorem lexeme_digits_iff {id i : Nat} {rule : Rule} : digits.Lexeme i id rule [] ↔
    (id, i, rule) = (1, 0, digits.upToTwo) := by
  constructor
  · intro h
    have hrule : [(0, { ordinal := 0, kind := 1, regex := digits.digit }), (0, digits.upToTwo),
        (0, digits.hashed)][id]? = some (i, rule) := h.numbered
    match id with
    | 0 =>
      -- The rule is hidden.
      cases hrule
      exact absurd rfl h.visible
    | 1 =>
      cases hrule
      rfl
    | 2 =>
      -- A text of this rule ends in a character.
      cases hrule
      obtain ⟨u, v, hnil, -, v, w, rfl, hliteral, -⟩ := Regex.matches_seq.1 h.matches_
      obtain ⟨-, hv⟩ := List.nil_eq_append_iff.1 hnil
      rw [(List.append_eq_nil_iff.1 hv).1] at hliteral
      exact absurd (Regex.matches_literal.1 hliteral).1 (by decide)
    | n + 3 => cases hrule
  · intro h
    cases h
    have hdigit : Regex.Matches digits.Target false (.ref {} "DIGIT") [] :=
      .ref rfl (Regex.matches_repeated.2 ⟨0, Nat.zero_le 1, rfl⟩)
    exact ⟨rfl, by decide, by decide,
      Regex.matches_seq.2 ⟨[], [], rfl, hdigit, [], [], rfl, hdigit, rfl⟩⟩

end Lexicon

/-! ### All the rules -/

namespace Engine

open Automaton

variable {a : Automaton} {lexicon : Lexicon} {options : Options}

/-- The rules are gone through by their numbers. -/
theorem emptyMatches_eq (h : a.Implements lexicon) :
    (ofAutomaton a).emptyMatches = ((List.range lexicon.numbered.length).filterMap
      (a.skipped? lexicon)).map fun x => lexicon.matchesEmpty x.2.1 x.2.2 := by
  have hrules : a.rules.toList.map some =
      (List.range lexicon.numbered.length).map fun id => a.rules[id]? := by
    rw [← h.ruleCount]
    refine List.ext_getElem (by simp) fun id hid _ => ?_
    simp only [List.length_map, Array.length_toList] at hid
    simp [hid]
  -- The rules are gone through by their numbers, as those of the lexicon are.
  have hall : ∀ f : RuleInfo → Option Message, a.rules.toList.filterMap f =
      (List.range lexicon.numbered.length).filterMap fun id => a.rules[id]? >>= f := by
    intro f
    have := congrArg (List.filterMap (· >>= f)) hrules
    rwa [List.filterMap_map, List.filterMap_map] at this
  unfold emptyMatches
  rw [show (ofAutomaton a).automaton = a from rfl, hall, List.map_filterMap]
  refine List.filterMap_congr fun id hid => ?_
  obtain ⟨⟨i, rule⟩, hrule⟩ : ∃ x, lexicon.numbered[id]? = some x :=
    ⟨_, List.getElem?_eq_getElem (List.mem_range.1 hid)⟩
  obtain ⟨info, hinfo, -⟩ := h.rule hrule
  obtain ⟨j, state, hstate, -⟩ := Lexicon.exists_of_numbered hrule
  have hwarning : lexicon.matchesEmpty i rule =
      (Issue.matchesEmpty info.name).message info.pos := by
    obtain ⟨hname, hpos⟩ := h.shown hrule hinfo hstate
    unfold Lexicon.matchesEmpty
    rw [hname, hpos, hstate]
    rfl
  unfold skipped?
  simp only [hrule, hinfo, Option.bind_eq_bind, Option.bind_some]
  cases info.fragment with
  | none => rfl
  | some fragment =>
    simp only [Option.bind_some]
    split
    · rw [Option.map_some, hwarning]
    · rfl

/-- There is exactly one warning for each rule that has the empty text and is neither hidden nor for
the end of the input, in the order of their numbers. Nothing else is logged. -/
theorem empty_warns (h : BuiltCleanly lexicon options) (log : Log) :
    ∃ found : List (Nat × Nat × Rule),
      (found.Pairwise fun x y => x.1 < y.1) ∧
      (∀ id i rule, (id, i, rule) ∈ found ↔ lexicon.Lexeme i id rule []) ∧
      (log.pushAll (ofAutomaton (ofLexicon lexicon options).1).emptyMatches).messages.toList =
        log.messages.toList ++ found.map fun x => lexicon.matchesEmpty x.2.1 x.2.2 := by
  have himplements := implements_ofLexicon h
  refine ⟨(List.range lexicon.numbered.length).filterMap
    ((ofLexicon lexicon options).1.skipped? lexicon), ?_, fun id i rule => ?_, ?_⟩
  · refine List.Pairwise.filterMap _ (fun id id' hlt x hx x' hx' => ?_) List.pairwise_lt_range
    rw [← ((skipped?_eq_some_iff himplements).1 hx).1,
      ← ((skipped?_eq_some_iff himplements).1 hx').1]
    exact hlt
  · simp only [List.mem_filterMap, skipped?_eq_some_iff himplements, List.mem_range]
    constructor
    · rintro ⟨_, -, rfl, hlexeme⟩
      exact hlexeme
    · exact fun hlexeme => ⟨id, (List.getElem?_eq_some_iff.1 hlexeme.numbered).1, rfl, hlexeme⟩
  · rw [emptyMatches_eq himplements]
    refine Log.messages_pushAll log fun m hm => ?_
    obtain ⟨x, -, rfl⟩ := List.mem_map.1 hm
    exact fun hnot => nomatch hnot

/-- There is one warning about the sample lexicon. The hidden rule has the empty text as well. -/
theorem empty_warns_digits : BuiltCleanly Lexicon.digits .quiet ∧
    (({} : Log).pushAll
      (ofAutomaton (ofLexicon Lexicon.digits .quiet).1).emptyMatches).messages.toList =
      [.warning "rule DIGITS matches the empty string, which never produces a token"] := by
  have hbuilt := builtCleanly_of_sound Lexicon.sound_digits (by decide)
  obtain ⟨found, horder, hfound, hwarnings⟩ := empty_warns hbuilt {}
  have hnodup : found.Nodup := horder.imp fun hlt heq => by
    rw [heq] at hlt
    exact Nat.lt_irrefl _ hlt
  have hperm : found.Perm [(1, 0, Lexicon.digits.upToTwo)] := by
    refine (List.perm_ext_iff_of_nodup hnodup (List.nodup_singleton _)).2 fun ⟨id, i, rule⟩ => ?_
    rw [hfound, Lexicon.lexeme_digits_iff, List.mem_singleton]
  refine ⟨hbuilt, ?_⟩
  rw [hwarnings, List.perm_singleton.1 hperm]
  rfl

end Engine

end Lexwright

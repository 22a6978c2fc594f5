import Lexwright.Proofs.Automaton.Explore
import Lexwright.Proofs.LongestMatch

/-!
# `Lexwright.Proofs.Automaton.Unmatched`: exactly the rules that are never matched are reported

* `Lexicon.Wins`: the rule that is selected for a text.
* `Lexicon.Warns`: the warnings of a lexical state, in terms of its rules and of the sets of states
  to which texts lead.
* `Engine.selected_iff`: texts select the rules that win.
* `Engine.encard_reached_le`: how many sets there are at most.
* `Engine.warns_unmatchedIn`: the warnings of one lexical state.
* `Engine.unmatched_warns`: those of a lexicon.
* `Engine.hidden_not_counted`: a hidden rule does not keep a later one from being matched.
-/

set_option autoImplicit false

namespace Lexwright

namespace Lexicon

variable {lexicon : Lexicon} {i id : Nat} {w : List Char}

/-- The rule has the text, and no rule of the lexical state that has it has a lower ordinal. -/
def Wins (lexicon : Lexicon) (i id : Nat) (w : List Char) : Prop :=
  ∃ rule, lexicon.Lexeme i id rule w ∧
    ∀ id' rule', lexicon.Lexeme i id' rule' w → rule.ordinal ≤ rule'.ordinal

/-- The rule is neither hidden nor for the end of the input, and wins no text but perhaps the empty
one. -/
structure NeverWins (lexicon : Lexicon) (i id : Nat) (rule : Rule) : Prop where
  numbered : lexicon.numbered[id]? = some (i, rule)
  notEof : ¬rule.regex.isEof = true
  visible : ¬rule.regex.tag.hidden = true
  never : ∀ w, w ≠ [] → ¬lexicon.Wins i id w

/-- The warning that a rule of the lexical state is never matched. -/
def neverMatched (state : LexState) (rule : Rule) : Message :=
  (Issue.neverMatched rule.name).message (rule.regex.tag.pos.or state.pos)

/-- The warnings of a lexical state: that there are too many sets of states to search, or those of
the rules that never win, in their order. -/
inductive Warns (lexicon : Lexicon) (sets : Set StateSet) (limit i : Nat) (state : LexState) :
    List Message → Prop where
  | stopped (h : (limit : ℕ∞) < sets.encard) :
      Warns lexicon sets limit i state [(Issue.searchStopped state.name limit).message none]
  | searched (h : ¬(limit : ℕ∞) < sets.encard) {found : List (Nat × Rule)}
      (horder : found.Pairwise fun x y => x.1 < y.1)
      (hfound : ∀ id rule, (id, rule) ∈ found ↔ lexicon.NeverWins i id rule) :
      Warns lexicon sets limit i state (found.map fun x => neverMatched state x.2)

/-- The numbers of the rules of a lexical state follow that of its first rule. -/
theorem exists_numbered_iff {state : LexState} (hstate : lexicon.states[i]? = some state) :
    (∃ rule, lexicon.numbered[id]? = some (i, rule)) ↔
      id ∈ List.range' (Automaton.firstRuleOf lexicon.states i) state.rules.length := by
  rw [List.mem_range'_1]
  constructor
  · intro ⟨rule, hrule⟩
    obtain ⟨j, state', hstate', hj, rfl⟩ := exists_of_numbered hrule
    rw [hstate] at hstate'
    cases hstate'
    have := (List.getElem?_eq_some_iff.1 hj).1
    omega
  · intro ⟨hlow, hhigh⟩
    obtain ⟨j, rfl⟩ := Nat.exists_eq_add_of_le hlow
    have hj : j < state.rules.length := by omega
    refine ⟨state.rules[j], ?_⟩
    rw [getElem?_numbered hstate hj, List.getElem?_eq_getElem hj]
    rfl

/-- Within a lexical state of an automaton, the rule that wins is the first one. -/
theorem wins_iff_first {a : Automaton} (h : a.Implements lexicon) :
    lexicon.Wins i id w ↔ lexicon.First i w id := by
  constructor
  · intro ⟨rule, hrule, hlowest⟩
    refine ⟨rule, hrule, fun id' rule' hrule' => ⟨Nat.le_of_not_lt fun hlt => ?_,
      hlowest id' rule' hrule'⟩⟩
    -- A rule before this one would have a lower ordinal.
    have hordinal := h.ordinal hrule'.numbered hrule.numbered hlt
    exact absurd (hlowest id' rule' hrule') (Nat.not_le_of_lt hordinal)
  · intro ⟨rule, hrule, hfirst⟩
    exact ⟨rule, hrule, fun id' rule' hrule' => (hfirst id' rule' hrule').2⟩

end Lexicon

namespace Engine

open Automaton

variable {a : Automaton} {lexicon : Lexicon} {options : Options} {i id limit : Nat}
  {info : LexStateInfo} {x : Exploration}

/-- Texts select exactly the rules that win them. -/
theorem selected_iff (h : a.Implements lexicon) (hinfo : a.lexStates[i]? = some info) :
    (ofAutomaton a).Selected i id ↔ ∃ w, w ≠ [] ∧ lexicon.Wins i id w := by
  simp only [Lexicon.wins_iff_first h]
  constructor
  · rintro ⟨w, acc, hne, haccept, rfl⟩
    obtain ⟨r, hr, hfirst, -⟩ := exists_acceptOf h hinfo (tracks_after h.separate hinfo w)
    rw [haccept] at hr
    cases hr
    exact ⟨w, hne, hfirst⟩
  · intro ⟨w, hne, hwins⟩
    obtain ⟨r, hr, hfirst, -⟩ := exists_acceptOf h hinfo (tracks_after h.separate hinfo w)
    cases r with
    | none =>
      obtain ⟨rule, hrule, -⟩ := hwins
      exact absurd hrule (hfirst id rule)
    | some acc => exact ⟨w, acc, hne, hr, Lexicon.First.eq hfirst hwins⟩

/-- The automaton of a lexicon can be explored: what it reads, it reads alike on all the characters
of a part. -/
theorem explorable (h : a.Implements lexicon) (hinfo : a.lexStates[i]? = some info) :
    (ofAutomaton a).Explorable i where
  normal hmove := (h.regular hmove).normal
  scalars hmove := (h.regular hmove).scalars
  accepts w := by
    obtain ⟨r, hr, -⟩ := exists_acceptOf h hinfo (tracks_after h.separate hinfo w)
    exact ⟨r, hr⟩

/-- Texts lead to no more sets than there are sets of states. -/
theorem encard_reached_le (h : a.Implements lexicon) (hinfo : a.lexStates[i]? = some info) :
    ((ofAutomaton a).Reached i).encard ≤ (2 ^ a.states.size : ℕ) := by
  let members (set : StateSet) : Finset Nat := set.toList.toFinset
  have hmaps : Set.MapsTo members ((ofAutomaton a).Reached i)
      (Finset.range a.states.size).powerset := by
    rintro _ ⟨w, rfl, -⟩
    refine Finset.mem_coe.2 (Finset.mem_powerset.2 fun q hq => Finset.mem_range.2 ?_)
    exact ((tracks_after h.separate hinfo w q).1 (List.mem_toFinset.1 hq)).1.lt_size
  have hinjective : Set.InjOn members ((ofAutomaton a).Reached i) := by
    intro set _ set' _ hmembers
    refine SortedSet.ext fun q => ?_
    exact List.mem_toFinset.symm.trans ((Finset.ext_iff.1 hmembers q).trans List.mem_toFinset)
  refine (Set.encard_le_encard_of_injOn hmaps hinjective).trans ?_
  rw [Set.encard_coe_eq_coe_finsetCard, Finset.card_powerset, Finset.card_range]

/-- The rule with this number, if it could have been selected and was not. -/
def missed? (lexicon : Lexicon) (x : Exploration) (id : Nat) : Option (Nat × Rule) :=
  match lexicon.numbered[id]? with
  | some (_, rule) =>
    if !rule.regex.isEof && !rule.regex.tag.hidden && !x.selected.contains id then some (id, rule)
    else none
  | none => none

/-- A rule is missed exactly if it is visible, not the end of the input, and selected by no set that
was met. -/
theorem missed?_eq_some_iff {id' : Nat} {rule : Rule} :
    missed? lexicon x id = some (id', rule) ↔ id = id' ∧
      (∃ i, lexicon.numbered[id]? = some (i, rule)) ∧ ¬rule.regex.isEof = true ∧
        ¬rule.regex.tag.hidden = true ∧ ¬id ∈ x.selected := by
  unfold missed?
  cases hrule : lexicon.numbered[id]? with
  | none => simp
  | some found =>
    obtain ⟨j, rule'⟩ := found
    simp only [Option.ite_none_right_eq_some, Option.some.injEq, Prod.mk.injEq, exists_eq_left',
      Bool.and_eq_true, Bool.not_eq_true', Bool.not_eq_true, ← Std.HashSet.contains_iff_mem]
    constructor
    · rintro ⟨⟨⟨heof, hhidden⟩, hselected⟩, rfl, rfl⟩
      exact ⟨rfl, rfl, heof, hhidden, hselected⟩
    · rintro ⟨rfl, rfl, heof, hhidden, hselected⟩
      exact ⟨⟨⟨heof, hhidden⟩, hselected⟩, rfl, rfl⟩

/-- The warnings about rules are those of the rules that were missed. -/
theorem unmatchedIn_of_complete (h : a.Implements lexicon) (hinfo : a.lexStates[i]? = some info)
    {state : LexState} (hstate : lexicon.states[i]? = some state) (hx : x.complete = true) :
    (ofAutomaton a).unmatchedIn limit info x =
      ((List.range' (firstRuleOf lexicon.states i) state.rules.length).filterMap
        (missed? lexicon x)).map fun x => Lexicon.neverMatched state x.2 := by
  obtain ⟨state', hstate', -, hfirst, hend⟩ := h.state hinfo
  rw [hstate] at hstate'
  cases hstate'
  unfold unmatchedIn
  rw [if_pos hx, hend, Nat.add_sub_cancel_left, hfirst, List.map_filterMap]
  refine List.filterMap_congr fun id hid => ?_
  obtain ⟨rule, hrule⟩ := (Lexicon.exists_numbered_iff hstate).2 hid
  obtain ⟨rinfo, hrinfo, -, -, -, -, -, hfragment⟩ := h.rule hrule
  obtain ⟨hname, hpos⟩ := h.shown hrule hrinfo hstate
  -- The rule has a fragment unless it is hidden or stands for the end of the input.
  have hsome : rinfo.fragment.isSome = (!rule.regex.isEof && !rule.regex.tag.hidden) := by
    rw [Bool.eq_iff_iff, hfragment]
    simp
  unfold missed?
  rw [show (ofAutomaton a).automaton.rules[id]? = some rinfo from hrinfo, hrule]
  simp only [hsome, hname, hpos]
  split
  · rfl
  · rfl

/-- The warnings of one lexical state are those that it deserves. -/
theorem warns_unmatchedIn (h : a.Implements lexicon) (hinfo : a.lexStates[i]? = some info)
    {state : LexState} (hstate : lexicon.states[i]? = some state)
    (hcomplete : x.complete = true ↔ ¬(limit : ℕ∞) < ((ofAutomaton a).Reached i).encard)
    (hselected : x.complete = true → ∀ id, id ∈ x.selected ↔ (ofAutomaton a).Selected i id) :
    lexicon.Warns ((ofAutomaton a).Reached i) limit i state
      ((ofAutomaton a).unmatchedIn limit info x) := by
  -- A search that is not complete has been stopped at the bound.
  by_cases hx : x.complete = true
  · rw [unmatchedIn_of_complete h hinfo hstate hx]
    refine .searched (hcomplete.1 hx) ?_ fun id rule => ?_
    · -- The numbers are gone through in order.
      refine List.Pairwise.filterMap _ (fun id id' hlt y hy y' hy' => ?_)
        (List.pairwise_lt_range' ..)
      rw [← (missed?_eq_some_iff.1 hy).1, ← (missed?_eq_some_iff.1 hy').1]
      exact hlt
    · simp only [List.mem_filterMap, missed?_eq_some_iff, hselected hx, selected_iff h hinfo,
        not_exists, not_and, ← Lexicon.exists_numbered_iff hstate]
      constructor
      · rintro ⟨_, ⟨rule', hrule'⟩, rfl, ⟨j, hrule⟩, heof, hhidden, hnever⟩
        rw [hrule'] at hrule
        cases hrule
        exact ⟨hrule', heof, hhidden, hnever⟩
      · intro hnever
        exact ⟨id, ⟨rule, hnever.numbered⟩, rfl, ⟨i, hnever.numbered⟩, hnever.notEof,
          hnever.visible, hnever.never⟩
  · obtain ⟨state', hstate', hname, -⟩ := h.state hinfo
    rw [hstate] at hstate'
    cases hstate'
    unfold unmatchedIn
    rw [if_neg hx, hname]
    exact .stopped (Classical.byContradiction fun hle => hx (hcomplete.2 hle))

/-! ### All the lexical states -/

/-- The warnings of the lexical states from number `i` on, by induction on them. -/
theorem exists_unmatchedFrom (h : a.Implements lexicon) (hlimit : 0 < limit)
    {infos : List LexStateInfo} (i : Nat)
    (hinfos : ∀ j info, infos[j]? = some info → a.lexStates[i + j]? = some info) (log : Log) :
    ∃ warnings : List (List Message), warnings.length = infos.length ∧
      (ofAutomaton a).unmatchedFrom limit i log infos = (log.pushAll warnings.flatten, none) ∧
      ∀ j state messages, lexicon.states[i + j]? = some state → warnings[j]? = some messages →
        lexicon.Warns ((ofAutomaton a).Reached (i + j)) limit (i + j) state messages := by
  induction infos generalizing i log with
  | nil => exact ⟨[], rfl, rfl, fun j state messages _ hmessages => by cases hmessages⟩
  | cons info infos ih =>
    have hinfo : a.lexStates[i]? = some info := hinfos 0 info rfl
    obtain ⟨x, hx, hcomplete, hselected⟩ := exists_explore (explorable h hinfo) hlimit
    obtain ⟨warnings, hlength, hrest, hwarns⟩ := ih (i + 1) (fun j info hj => by
      rw [Nat.add_right_comm]
      exact hinfos (j + 1) info hj) (log.pushAll ((ofAutomaton a).unmatchedIn limit info x))
    refine ⟨(ofAutomaton a).unmatchedIn limit info x :: warnings, congrArg (· + 1) hlength, ?_,
      fun j state messages hstate hmessages => ?_⟩
    · unfold unmatchedFrom
      rw [hx]
      simp only
      rw [hrest, List.flatten_cons, Log.pushAll_append]
    · cases j with
      | zero =>
        cases hmessages
        exact warns_unmatchedIn h hinfo hstate hcomplete hselected
      | succ j =>
        rw [← Nat.add_assoc, Nat.add_right_comm] at hstate ⊢
        exact hwarns j state messages hstate hmessages

/-- The warnings of all the lexical states of an automaton. -/
theorem exists_unmatched (h : a.Implements lexicon) (hlimit : 0 < limit) (log : Log) :
    ∃ warnings : List (List Message), warnings.length = lexicon.states.length ∧
      (ofAutomaton a).unmatched limit log = (log.pushAll warnings.flatten, none) ∧
      ∀ i state messages, lexicon.states[i]? = some state → warnings[i]? = some messages →
        lexicon.Warns ((ofAutomaton a).Reached i) limit i state messages := by
  have hinfos : ∀ j info, a.lexStates.toList[j]? = some info → a.lexStates[0 + j]? = some info :=
    fun j info hj => by rwa [Nat.zero_add, ← Array.getElem?_toList]
  obtain ⟨warnings, hlength, hwarnings, hwarns⟩ := exists_unmatchedFrom h hlimit 0 hinfos log
  simp only [Nat.zero_add] at hwarns
  refine ⟨warnings, ?_, ?_, hwarns⟩
  · rw [hlength, Array.length_toList, h.stateCount]
  · unfold unmatched
    rw [if_neg (Nat.ne_of_gt hlimit)]
    exact hwarnings

end Engine

/-! ### A hidden rule wins nothing -/

namespace Lexicon

/-- Three rules for one character. The first one is hidden, and the last one never wins. -/
def masked : Lexicon where
  states := [{ name := "main", rules := [one 0 "A" true, one 1 "B" false, one 2 "C" false] }]
where
  one (ordinal : Nat) (label : String) (hidden : Bool) : Rule :=
    { ordinal, kind := ordinal + 1,
      regex := .chars { label := some label, hidden } false [('a', 'a')] }

variable {ordinal id i : Nat} {label : String} {hidden : Bool} {rule : Rule} {w : List Char}
  {messages : List Message}

/-- Both rules of the sample match the same single text. -/
theorem matches_masked_iff : (masked.one ordinal label hidden).Matches masked w ↔ w = ['a'] := by
  constructor
  · intro h
    cases h with
    | chars h =>
      obtain ⟨_, hrange, written, hlow, hhigh, hread⟩ := h.2 rfl
      cases List.mem_singleton.1 hrange
      rcases hread with rfl | ⟨hcase, -⟩
      · rw [Char.toNat_inj.1 (Nat.le_antisymm hhigh hlow)]
      · cases hcase
  · rintro rfl
    exact Regex.matches_char 'a'

/-- The last rule is the only one that never wins. -/
theorem neverWins_masked_iff :
    masked.NeverWins 0 id rule ↔ id = 2 ∧ rule = masked.one 2 "C" false := by
  constructor
  · intro h
    have hrule : [(0, masked.one 0 "A" true), (0, masked.one 1 "B" false),
        (0, masked.one 2 "C" false)][id]? = some (0, rule) := h.numbered
    match id with
    | 0 =>
      cases hrule
      exact absurd rfl h.visible
    | 1 =>
      cases hrule
      -- The rule wins the character: the only one before it is hidden.
      have hlowest : ∀ x ∈ masked.numbered, ¬x.2.regex.tag.hidden = true → 1 ≤ x.2.ordinal := by
        decide
      exact absurd ⟨_, ⟨rfl, h.notEof, h.visible, matches_masked_iff.2 rfl⟩, fun id' rule' hrule' =>
        hlowest _ (List.mem_of_getElem? hrule'.numbered) hrule'.visible⟩ (h.never ['a'] nofun)
    | 2 =>
      cases hrule
      exact ⟨rfl, rfl⟩
    | n + 3 => cases hrule
  · rintro ⟨rfl, rfl⟩
    refine ⟨rfl, by decide, by decide, fun w _ ⟨rule, hrule, hlowest⟩ => ?_⟩
    cases hrule.numbered
    -- The rule before it has the same texts.
    have hbefore : masked.Lexeme 0 1 (masked.one 1 "B" false) w :=
      ⟨rfl, by decide, by decide, matches_masked_iff.2 (matches_masked_iff.1 hrule.matches_)⟩
    exact absurd (hlowest 1 _ hbefore) (by decide)

/-- The only warning of the sample lexicon is that of its last rule. -/
theorem Warns.masked_eq {sets : Set StateSet} {limit : Nat} {state : LexState}
    (h : masked.Warns sets limit 0 state messages) (hsets : sets.encard ≤ limit) :
    messages = [neverMatched state (masked.one 2 "C" false)] := by
  cases h with
  | stopped hlt => exact absurd hsets (not_le_of_gt hlt)
  | searched _ horder hfound =>
    rename_i found
    have hnodup : found.Nodup := horder.imp fun hlt heq => by
      rw [heq] at hlt
      exact Nat.lt_irrefl _ hlt
    have hperm : found.Perm [(2, masked.one 2 "C" false)] := by
      refine (List.perm_ext_iff_of_nodup hnodup (List.nodup_singleton _)).2 fun ⟨id, rule⟩ => ?_
      rw [hfound, neverWins_masked_iff, List.mem_singleton, Prod.mk.injEq]
    rw [List.perm_singleton.1 hperm, List.map_singleton]

end Lexicon

set_option maxRecDepth 100000 in
/-- The sample has no errors. -/
theorem hasNoErrors_masked :
    (Automaton.ofLexicon Lexicon.masked Options.quiet).2.hasNoErrors = true := by
  cbv

set_option maxRecDepth 100000 in
/-- The automaton of the sample has five states. -/
theorem size_states_masked :
    (Automaton.ofLexicon Lexicon.masked Options.quiet).1.states.size = 5 := by
  cbv

namespace Engine

open Automaton

/-- So few states have fewer sets than the limit of the sample. -/
theorem encard_reached_masked_le :
    ((ofAutomaton (ofLexicon Lexicon.masked Options.quiet).1).Reached 0).encard ≤ (100 : ℕ) := by
  have himplements := implements_ofLexicon (builtCleanly_of_hasNoErrors rfl hasNoErrors_masked)
  have hpos : 0 < (ofLexicon Lexicon.masked Options.quiet).1.lexStates.size :=
    Nat.lt_of_lt_of_eq Nat.zero_lt_one himplements.stateCount.symm
  have hsets := encard_reached_le himplements (Array.getElem?_eq_getElem hpos)
  rw [size_states_masked] at hsets
  exact hsets.trans (Nat.cast_le.2 (by decide))

/-- The only warning about the sample lexicon is that of its last rule. -/
theorem flatten_masked {warnings : List (List Message)}
    (hlength : warnings.length = Lexicon.masked.states.length)
    (hwarns : ∀ i state messages, Lexicon.masked.states[i]? = some state →
      warnings[i]? = some messages → Lexicon.masked.Warns
        ((ofAutomaton (ofLexicon Lexicon.masked Options.quiet).1).Reached i) 100 i state messages) :
    warnings.flatten = [.warning "rule C can never be matched"] := by
  obtain ⟨messages, rfl⟩ := List.length_eq_one_iff.1 hlength
  rw [(hwarns 0 _ messages rfl rfl).masked_eq encard_reached_masked_le]
  rfl

/-! ### The warnings of a lexicon -/

variable {lexicon : Lexicon} {options : Options} {limit : Nat}

/-- Every lexical state gets exactly the warnings that it deserves. If texts lead to more sets of
states than the limit, the only one says so; else the rules that win no text are reported. -/
theorem unmatched_warns (h : BuiltCleanly lexicon options) (hlimit : 0 < limit) (log : Log) :
    ∃ warnings : List (List Message), warnings.length = lexicon.states.length ∧
      (ofAutomaton (ofLexicon lexicon options).1).unmatched limit log =
        (log.pushAll warnings.flatten, none) ∧
      ∀ i state messages, lexicon.states[i]? = some state → warnings[i]? = some messages →
        lexicon.Warns ((ofAutomaton (ofLexicon lexicon options).1).Reached i) limit i state
          messages :=
  exists_unmatched (implements_ofLexicon h) hlimit log

/-- Of the rules of the sample lexicon only the last one is reported. -/
theorem unmatched_warns_masked : BuiltCleanly Lexicon.masked Options.quiet ∧ 0 < 100 ∧
    ((ofAutomaton (ofLexicon Lexicon.masked Options.quiet).1).unmatched 100 {}).1.messages =
      #[.warning "rule C can never be matched"] := by
  have hbuilt : BuiltCleanly Lexicon.masked Options.quiet :=
    builtCleanly_of_hasNoErrors rfl hasNoErrors_masked
  refine ⟨hbuilt, by decide, ?_⟩
  obtain ⟨warnings, hlength, hwarnings, hwarns⟩ := unmatched_warns hbuilt (by decide : 0 < 100) {}
  rw [hwarnings, flatten_masked hlength hwarns]
  rfl

/-- Hidden rules are left out of account. The second rule of the sample lexicon has no text but that
of the hidden rule before it, and it is not reported. -/
theorem hidden_not_counted : BuiltCleanly Lexicon.masked Options.quiet ∧
    ¬((100 : ℕ) : ℕ∞) <
      ((ofAutomaton (ofLexicon Lexicon.masked Options.quiet).1).Reached 0).encard ∧
    ∃ rule info, Lexicon.masked.numbered[1]? = some (0, rule) ∧
      (ofLexicon Lexicon.masked Options.quiet).1.rules[1]? = some info ∧ info.fragment.isSome ∧
      (∀ w, w ≠ [] → ¬(rule.Matches Lexicon.masked w ∧ ∀ (id' : Nat) (rule' : Rule),
        Lexicon.masked.numbered[id']? = some (0, rule') → rule'.Matches Lexicon.masked w →
          rule.ordinal ≤ rule'.ordinal)) ∧
      ¬Lexicon.neverMatched { name := "main" } rule ∈
        ((ofAutomaton (ofLexicon Lexicon.masked Options.quiet).1).unmatched 100 {}).1.messages := by
  have hbuilt : BuiltCleanly Lexicon.masked Options.quiet :=
    builtCleanly_of_hasNoErrors rfl hasNoErrors_masked
  have himplements := implements_ofLexicon hbuilt
  have hrule : Lexicon.masked.numbered[1]? = some (0, Lexicon.masked.one 1 "B" false) := rfl
  obtain ⟨info, hinfo, -, -, -, -, -, hfragment⟩ := himplements.rule hrule
  refine ⟨hbuilt, not_lt_of_ge encard_reached_masked_le, _, info, hrule, hinfo,
    hfragment.2 (by decide), fun w _ ⟨hmatches, hlowest⟩ => ?_, fun hreported => ?_⟩
  · -- The hidden rule has the text too, and a lower ordinal.
    have hhidden := hlowest 0 (Lexicon.masked.one 0 "A" true) rfl
      (Lexicon.matches_masked_iff.2 (Lexicon.matches_masked_iff.1 hmatches))
    exact absurd hhidden (by decide)
  · obtain ⟨warnings, hlength, hwarnings, hwarns⟩ :=
      exists_unmatched himplements (by decide : 0 < 100) {}
    rw [hwarnings, flatten_masked hlength hwarns] at hreported
    exact absurd (Array.mem_singleton.1 hreported) (by decide)

end Engine

end Lexwright

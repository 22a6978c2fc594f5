import Lexwright.Proofs.Automaton.Subset

/-!
# `Lexwright.Proofs.LongestMatch`: what a lexical state selects from a text

Of the prefixes of a text that a rule of the lexical state has, the longest one is selected, and
of the rules that have it the first one.

* `Lexicon.Selects`: the rule and the length that are selected, in terms of the languages of the
  rules alone.
* `Lexicon.Chosen`: a choice that is made exactly when something is selected. `Chosen.concat` and
  `Chosen.append` say how it changes when the text grows.
* `Engine.chosen_longestMatch`: the engine chooses what is selected, and never finds a conflict.
-/

set_option autoImplicit false

namespace Lexwright

namespace Lexicon

variable {lexicon : Lexicon} {i id id' n n' : Nat} {c : Char} {u v w : List Char}

/-- A rule of the lexical state has the text, and it is neither hidden nor for the end of the
input. -/
structure Lexeme (lexicon : Lexicon) (i id : Nat) (rule : Rule) (w : List Char) : Prop where
  numbered : lexicon.numbered[id]? = some (i, rule)
  notEof : ¬rule.regex.isEof = true
  visible : ¬rule.regex.tag.hidden = true
  matches_ : rule.Matches lexicon w

/-- The first rule of the lexical state that has the text: no rule before it and no rule with a
lower ordinal has it. -/
def First (lexicon : Lexicon) (i : Nat) (w : List Char) (id : Nat) : Prop :=
  ∃ rule, lexicon.Lexeme i id rule w ∧
    ∀ id' rule', lexicon.Lexeme i id' rule' w → id ≤ id' ∧ rule.ordinal ≤ rule'.ordinal

/-- The longest non-empty prefix of `u` that a rule of the lexical state has is its first `n`
characters, and the rule is the first one that has them. -/
structure Selects (lexicon : Lexicon) (i : Nat) (u : List Char) (id n : Nat) : Prop where
  pos : 1 ≤ n
  le : n ≤ u.length
  first : lexicon.First i (u.take n) id
  longest : ∀ (m id' : Nat) (rule' : Rule), n < m → m ≤ u.length →
    ¬lexicon.Lexeme i id' rule' (u.take m)

/-- One rule at most is the first to match a text. -/
theorem First.eq (h : lexicon.First i w id) (h' : lexicon.First i w id') : id = id' := by
  obtain ⟨rule, hrule, hle⟩ := h
  obtain ⟨rule', hrule', hle'⟩ := h'
  exact Nat.le_antisymm (hle _ _ hrule').1 (hle' _ _ hrule).1

/-- At most one rule and one length are selected. -/
theorem Selects.eq (h : lexicon.Selects i u id n) (h' : lexicon.Selects i u id' n') :
    id = id' ∧ n = n' := by
  obtain ⟨rule, hrule, -⟩ := h.first
  obtain ⟨rule', hrule', -⟩ := h'.first
  rcases Nat.lt_trichotomy n n' with hlt | rfl | hlt
  · exact absurd hrule' (h.longest _ _ _ hlt h'.le)
  · exact ⟨h.first.eq h'.first, rfl⟩
  · exact absurd hrule (h'.longest _ _ _ hlt h.le)

/-- The sample lexicon selects its first rule from a word. -/
theorem selects_words : words.Selects 0 "abb".toList 0 3 where
  pos := by decide
  le := by decide
  first := by
    refine ⟨_, ⟨rfl, by decide, by decide, ?_⟩, fun id' rule' _ => ⟨Nat.zero_le _, Nat.zero_le _⟩⟩
    refine Regex.matches_seq.2
      ⟨['a'], ['b', 'b'], rfl, Regex.matches_char 'a', ['b', 'b'], [], rfl, ?_, rfl⟩
    exact Regex.matches_repeated.2
      ⟨2, trivial, ['b'], ['b'], rfl, Regex.matches_char 'b', ['b'], [], rfl,
        Regex.matches_char 'b', rfl⟩
  longest _ _ _ hlt hle := absurd hlt (Nat.not_lt.2 hle)

/-- The rule, if there is one, is the first that has the text; else no rule has it. -/
def IsFirst (lexicon : Lexicon) (i : Nat) (w : List Char) : Option Nat → Prop
  | some id => lexicon.First i w id
  | none => ∀ id rule, ¬lexicon.Lexeme i id rule w

/-- A choice of a rule and a length that is made exactly when they are selected. -/
def Chosen (lexicon : Lexicon) (i : Nat) (u : List Char) (choice : Option (Nat × Nat)) : Prop :=
  ∀ id n, choice = some (id, n) ↔ lexicon.Selects i u id n

/-- What is chosen is determined. -/
theorem Chosen.eq {choice choice' : Option (Nat × Nat)} (h : lexicon.Chosen i u choice)
    (h' : lexicon.Chosen i u choice') : choice = choice' := by
  refine Option.ext fun ⟨id, n⟩ => ?_
  exact (h id n).trans (h' id n).symm

/-- Nothing is chosen exactly if no prefix of the text is matched. -/
theorem Chosen.eq_none_iff {choice : Option (Nat × Nat)} (h : lexicon.Chosen i u choice) :
    choice = none ↔ ∀ id n, ¬lexicon.Selects i u id n := by
  rw [Option.eq_none_iff_forall_not_mem]
  constructor
  · intro hnone id n hselects
    exact hnone (id, n) ((h id n).2 hselects)
  · intro hnone ⟨id, n⟩ hchoice
    exact hnone id n ((h id n).1 hchoice)

/-- Nothing is chosen from the empty text. -/
theorem chosen_nil : lexicon.Chosen i [] none := by
  intro id n
  constructor
  · intro h
    cases h
  · intro h
    have := h.pos
    have : n ≤ 0 := h.le
    omega

/-- What is selected stays selected as long as no longer prefix is found. -/
theorem Chosen.append {choice : Option (Nat × Nat)} (h : lexicon.Chosen i w choice)
    (hnone : ∀ (m id : Nat) (rule : Rule), w.length < m → m ≤ (w ++ v).length →
      ¬lexicon.Lexeme i id rule ((w ++ v).take m)) : lexicon.Chosen i (w ++ v) choice := by
  intro id n
  refine (h id n).trans ?_
  have htake : ∀ m, m ≤ w.length → (w ++ v).take m = w.take m := fun m hm =>
    List.take_append_of_le_length hm
  constructor
  · intro hselects
    refine ⟨hselects.pos, ?_, ?_, fun m id' rule' hlt hle => ?_⟩
    · have := hselects.le
      rw [List.length_append]
      omega
    · rw [htake n hselects.le]
      exact hselects.first
    · by_cases hm : m ≤ w.length
      · rw [htake m hm]
        exact hselects.longest m id' rule' hlt hm
      · exact hnone m id' rule' (Nat.lt_of_not_le hm) hle
  · intro hselects
    obtain ⟨rule, hrule, -⟩ := hselects.first
    -- The prefix that is selected is not one of the longer ones.
    have hle : n ≤ w.length := by
      refine Nat.le_of_not_lt fun hlt => ?_
      exact hnone n id rule hlt hselects.le hrule
    refine ⟨hselects.pos, hle, ?_, fun m id' rule' hlt hm => ?_⟩
    · rw [← htake n hle]
      exact hselects.first
    · rw [← htake m hm]
      refine hselects.longest m id' rule' hlt ?_
      rw [List.length_append]
      omega

/-- One more character: the whole text is selected if a rule has it, else nothing changes. -/
theorem Chosen.concat {choice : Option (Nat × Nat)} {first : Option Nat}
    (h : lexicon.Chosen i w choice) (hfirst : lexicon.IsFirst i (w ++ [c]) first) :
    lexicon.Chosen i (w ++ [c]) ((first.map (·, w.length + 1)).or choice) := by
  have hlength : (w ++ [c]).length = w.length + 1 := by
    rw [List.length_append, List.length_singleton]
  have hwhole : (w ++ [c]).take (w.length + 1) = w ++ [c] := by
    rw [← hlength, List.take_length]
  cases first with
  | none =>
    -- The whole text is the only prefix that is new.
    refine h.append fun m id rule hlt hle => ?_
    obtain rfl : m = w.length + 1 := by omega
    rw [hwhole]
    exact hfirst id rule
  | some id =>
    have hselects : lexicon.Selects i (w ++ [c]) id (w.length + 1) := by
      refine ⟨Nat.le_add_left .., Nat.le_of_eq hlength.symm, ?_, fun m _ _ hlt hle => ?_⟩
      · rw [hwhole]
        exact hfirst
      · omega
    intro id' n'
    show some (id, w.length + 1) = some (id', n') ↔ _
    constructor
    · intro heq
      cases heq
      exact hselects
    · intro hselects'
      obtain ⟨rfl, rfl⟩ := hselects.eq hselects'
      rfl

end Lexicon

/-! ### The rules that a set of states accepts -/

namespace Automaton

variable {a : Automaton} {lexicon : Lexicon} {i q : Nat} {c : Char} {v w : List Char}
  {set : StateSet} {info : LexStateInfo} {acc : Accept}

/-- The active states belong to the lexical state that reading started in. -/
theorem Tracks.inLexState (h : a.Implements lexicon) (hinfo : a.lexStates[i]? = some info)
    (hset : a.Tracks info.start w set) : ∀ q ∈ set, a.InLexState i q :=
  fun q hq => h.inLexState_of_path (h.start hinfo).1 ((hset q).1 hq).2

/-- A set that tracks a text accepts the rules that have the text. -/
theorem Tracks.accepts_iff (h : a.Implements lexicon) (hinfo : a.lexStates[i]? = some info)
    (hset : a.Tracks info.start w set) :
    a.Accepts set acc ↔
      ∃ rule, lexicon.Lexeme i acc.rule rule w ∧ acc = ⟨acc.rule, rule.ordinal, rule.kind⟩ := by
  constructor
  · intro ⟨q, hq, hacc⟩
    obtain ⟨rule, hrule, heq, hmatches⟩ := (h.path_start_iff hinfo hacc).1 ((hset q).1 hq).2
    obtain ⟨heof, hhidden⟩ := h.visible_of_accept hacc hrule
    exact ⟨rule, ⟨hrule, heof, hhidden, hmatches⟩, heq⟩
  · intro ⟨rule, hlexeme, heq⟩
    obtain ⟨q, hacc, hpath⟩ := h.exists_path_start hinfo hlexeme.numbered hlexeme.notEof
      hlexeme.visible hlexeme.matches_
    rw [← heq] at hacc
    exact ⟨q, (hset q).2 ⟨important_of_accept hacc, hpath⟩, hacc⟩

/-- The lowest rule that a tracking set accepts is the first that has the text. -/
theorem Tracks.isFirst (h : a.Implements lexicon) (hinfo : a.lexStates[i]? = some info)
    (hset : a.Tracks info.start w set) {first : Option Nat}
    (hlowest : Lowest (a.AcceptsRule set) first) : lexicon.IsFirst i w first := by
  have haccepts : ∀ {id : Nat} {rule : Rule}, lexicon.Lexeme i id rule w → a.AcceptsRule set id :=
    fun {id rule} hlexeme => ⟨⟨id, rule.ordinal, rule.kind⟩,
      (hset.accepts_iff h hinfo).2 ⟨rule, hlexeme, rfl⟩, rfl⟩
  cases first with
  | none => exact fun id rule hlexeme => hlowest id (haccepts hlexeme)
  | some id =>
    obtain ⟨⟨acc, hacc, rfl⟩, hle⟩ := hlowest
    obtain ⟨rule, hlexeme, -⟩ := (hset.accepts_iff h hinfo).1 hacc
    refine ⟨rule, hlexeme, fun id' rule' hlexeme' => ?_⟩
    have hid := hle id' (haccepts hlexeme')
    refine ⟨hid, ?_⟩
    -- Numbers and ordinals of the rules of a lexical state are in the same order.
    rcases Nat.lt_or_eq_of_le hid with hlt | rfl
    · exact Nat.le_of_lt (h.ordinal hlexeme.numbered hlexeme'.numbered hlt)
    · have := hlexeme.numbered.symm.trans hlexeme'.numbered
      cases this
      exact Nat.le_refl _

/-- No rule has a text that begins with one that leads nowhere. -/
theorem Tracks.not_lexeme_of_isEmpty (h : a.Implements lexicon)
    (hinfo : a.lexStates[i]? = some info) (hset : a.Tracks info.start w set)
    (hempty : set.isEmpty = true) {id : Nat} {rule : Rule} :
    ¬lexicon.Lexeme i id rule (w ++ v) := by
  intro hlexeme
  obtain ⟨q, hacc, hpath⟩ := h.exists_path_start hinfo hlexeme.numbered hlexeme.notEof
    hlexeme.visible hlexeme.matches_
  exact hset.not_path_of_isEmpty hempty (important_of_accept hacc) hpath

/-- When one more character leads nowhere, nothing longer is selected. -/
theorem Tracks.chosen_of_isEmpty (h : a.Implements lexicon)
    (hinfo : a.lexStates[i]? = some info) (hset : a.Tracks info.start (w ++ [c]) set)
    (hempty : set.isEmpty = true) {choice : Option (Nat × Nat)}
    (hchoice : lexicon.Chosen i w choice) : lexicon.Chosen i (w ++ c :: v) choice := by
  refine hchoice.append fun m id rule hlt _ => ?_
  -- A longer prefix begins with the text that leads nowhere.
  have htake : (w ++ c :: v).take m = (w ++ [c]) ++ v.take (m - (w.length + 1)) := by
    rw [List.take_append, List.take_of_length_le (Nat.le_of_lt hlt), List.append_assoc,
      List.singleton_append, show m - w.length = m - (w.length + 1) + 1 by omega,
      List.take_succ_cons]
  rw [htake]
  exact hset.not_lexeme_of_isEmpty h hinfo hempty

end Automaton

/-! ### The longest match of the engine -/

namespace Engine

open Automaton

variable {a : Automaton} {lexicon : Lexicon} {i : Nat} {w : List Char} {set : StateSet}
  {info : LexStateInfo}

/-- What the engine keeps of a match: the number of the rule, and the length. -/
def choiceOf (best : Option (Accept × Nat)) : Option (Nat × Nat) :=
  best.map fun m => (m.1.rule, m.2)

/-- A match names a rule of the lexical state with the data of that rule. -/
def Faithful (lexicon : Lexicon) (i : Nat) (best : Option (Accept × Nat)) : Prop :=
  ∀ m ∈ best, ∃ rule, lexicon.numbered[m.1.rule]? = some (i, rule) ∧
    m.1 = ⟨m.1.rule, rule.ordinal, rule.kind⟩

/-- After a tracked text the engine accepts the first rule that has it. -/
theorem exists_acceptOf (h : a.Implements lexicon) (hinfo : a.lexStates[i]? = some info)
    (hset : a.Tracks info.start w set) :
    ∃ r, (ofAutomaton a).acceptOf set = .ok r ∧ lexicon.IsFirst i w (r.map Accept.rule) ∧
      ∀ acc ∈ r, ∃ rule, lexicon.numbered[acc.rule]? = some (i, rule) ∧
        acc = ⟨acc.rule, rule.ordinal, rule.kind⟩ := by
  have hmembers := hset.inLexState h hinfo
  obtain ⟨r, hr, hlowest⟩ := h.exists_acceptOf hmembers
  refine ⟨r, hr, hset.isFirst h hinfo (h.lowest_of_acceptsLowest hmembers hlowest),
    fun acc hacc => ?_⟩
  cases hacc
  obtain ⟨⟨q, hq, haccept⟩, _⟩ := hlowest
  exact h.exists_rule (hmembers q hq) haccept

/-- Reading on from a set that tracks the text read so far. The induction carries the choice for
that text. -/
theorem chosen_matchFrom (h : a.Implements lexicon) (hinfo : a.lexStates[i]? = some info)
    (rest : List Char) (hset : a.Tracks info.start w set) {best : Option (Accept × Nat)}
    (hbest : lexicon.Chosen i w (choiceOf best)) (hfaithful : Faithful lexicon i best) :
    ∃ r, (ofAutomaton a).matchFrom set best w.length rest = .ok r ∧
      lexicon.Chosen i (w ++ rest) (choiceOf r) ∧ Faithful lexicon i r := by
  -- The induction is on what is left of the text; the best match so far is the chosen one for what
  -- was read.
  induction rest generalizing w set best with
  | nil =>
    rw [List.append_nil]
    exact ⟨best, rfl, hbest, hfaithful⟩
  | cons c rest ih =>
    have hnext := hset.step (c := c) h.separate
    unfold matchFrom
    by_cases hempty : ((ofAutomaton a).step set c).isEmpty = true
    · simp only [if_pos hempty]
      exact ⟨best, rfl, hnext.chosen_of_isEmpty h hinfo hempty hbest, hfaithful⟩
    · simp only [if_neg hempty]
      obtain ⟨r, hr, hfirst, hrule⟩ := exists_acceptOf h hinfo hnext
      rw [hr]
      have hlength : w.length + 1 = (w ++ [c]).length := by
        rw [List.length_append, List.length_singleton]
      have happend : w ++ c :: rest = (w ++ [c]) ++ rest := by
        rw [List.append_assoc, List.singleton_append]
      have hchosen := hbest.concat hfirst
      rw [happend, hlength]
      cases r with
      | none => exact ih hnext hchosen hfaithful
      | some acc =>
        refine ih hnext ?_ ?_
        · rw [← hlength]
          exact hchosen
        · intro m hm
          cases hm
          exact hrule acc rfl

/-- The engine chooses what the lexical state selects. It finds no conflict. -/
theorem chosen_longestMatch (h : a.Implements lexicon) (hinfo : a.lexStates[i]? = some info)
    (text : String) :
    ∃ r, (ofAutomaton a).longestMatch i text = .ok r ∧
      lexicon.Chosen i text.toList (choiceOf r) ∧ Faithful lexicon i r :=
  chosen_matchFrom h hinfo text.toList (tracks_startSet hinfo) Lexicon.chosen_nil
    fun _ hm => nomatch hm

end Engine

end Lexwright

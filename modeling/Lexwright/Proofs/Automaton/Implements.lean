import Lexwright.Proofs.Automaton.Layout

/-!
# `Lexwright.Proofs.Automaton.Implements`: the automaton of a lexicon has its languages

* `Automaton.Implements`: what the automaton of a lexicon without errors has to do with the
  lexicon. `implements_ofLexicon` proves it. Later modules use nothing else of the construction.
* `Automaton.fragment_recognizes`: between entry and exit of the fragment of a rule, exactly the
  texts of the rule can be read.
* `Automaton.Implements.path_start_iff`: from the start state of a lexical state, exactly the
  texts of its rules lead to what the rules accept.
-/

set_option autoImplicit false

namespace Lexwright

namespace Automaton

variable {a : Automaton} {i : Nat} {info : LexStateInfo} {b : Block} {rs : List ResolvedRule}

/-! ### One lexical state -/

namespace Placed

variable {p q : Nat} {c : Char} {s : State}

/-- Every number of the block has a state. -/
theorem exists_state (h : a.Placed i info b rs) (hlow : info.start ≤ p)
    (hhigh : p ≤ info.start + b.size) : ∃ s, a.states[p]? = some s ∧ b.IsState i p s := by
  have := h.inRange
  have hs : a.states[p]? = some a.states[p] := Array.getElem?_eq_getElem (by omega)
  exact ⟨a.states[p], hs, h.states p _ hlow hhigh hs⟩

/-- The moves between the numbers of a block are those of the block. -/
theorem move?_iff (h : a.Placed i info b rs) (hlow : info.start ≤ p)
    (hhigh : p ≤ info.start + b.size) {set : Segments} :
    a.move? p = some (set, q) ↔ ⟨p, set, q⟩ ∈ b.moves := by
  obtain ⟨s, hs, hstate⟩ := h.exists_state hlow hhigh
  rw [← hstate.move]
  unfold move?
  rw [hs]
  exact Iff.rfl

/-- The accepted rules between the numbers of a block are those of the block. -/
theorem accept?_iff (h : a.Placed i info b rs) (hlow : info.start ≤ p)
    (hhigh : p ≤ info.start + b.size) {acc : Accept} :
    a.accept? p = some acc ↔ (p, acc) ∈ b.accepts := by
  obtain ⟨s, hs, hstate⟩ := h.exists_state hlow hhigh
  rw [← hstate.accept]
  unfold accept?
  rw [hs]
  exact Iff.rfl

/-- The jumps between the numbers of a block are those of the block. -/
theorem jump_iff (h : a.Placed i info b rs) (hlow : info.start ≤ p)
    (hhigh : p ≤ info.start + b.size) : a.graph.jump p q ↔ ⟨p, q⟩ ∈ b.jumps := by
  obtain ⟨s, hs, hstate⟩ := h.exists_state hlow hhigh
  rw [← hstate.jump]
  constructor
  · intro ⟨s', hs', hq⟩
    rw [hs] at hs'
    cases hs'
    exact hq
  · intro hq
    exact ⟨s, hs, hq⟩

/-- The automaton contains the fragments that the block holds, and nothing else leads on from
their states. -/
theorem path_fragment_iff (h : a.Placed i info b rs) {f : Fragment} {base : Nat}
    {L : List Char → Prop} {acc : Accept} (hf : f.Recognizes base L)
    (hlow : info.start < base) (hhigh : base + f.size ≤ info.start + 1 + b.size)
    (hholds : b.Holds info.start f base acc) (hq : ¬f.Inside base q) {w : List Char} :
    a.graph.Path f.entry w q ↔ q = f.exit ∧ L w := by
  have hincludes : a.graph.Includes f.moves f.jumps := by
    constructor
    · intro p set q c he hcovers
      have := (hf.move _ he).1
      simp only [Fragment.Inside] at this
      exact ⟨set, (h.move?_iff (by omega) (by omega)).2 (hholds.moves _ he), hcovers⟩
    · intro p q he
      have := (hf.jump _ he).1
      simp only [Fragment.Inside] at this
      exact (h.jump_iff (by omega) (by omega)).2 (hholds.jumps _ he)
  have hmoveOf : ∀ p c r, f.Within base p → a.graph.move p c r →
      ∃ set, ⟨p, set, r⟩ ∈ f.moves ∧ set.Covers c.toNat := by
    rintro p c r hp ⟨set, hmove, hcovers⟩
    have hwithin := hp
    simp only [Fragment.Within] at hp
    exact ⟨set, hholds.moveOf _ ((h.move?_iff (by omega) (by omega)).1 hmove) hwithin, hcovers⟩
  have hjumpOf : ∀ p r, f.Within base p → a.graph.jump p r → ⟨p, r⟩ ∈ f.jumps := by
    intro p r hp hjump
    have hwithin := hp
    simp only [Fragment.Within] at hp
    exact hholds.jumpOf _ ((h.jump_iff (by omega) (by omega)).1 hjump) hwithin
  -- The block holds no other edge at these states, so the fragment's invariant applies.
  have honly : a.graph.Only (f.Inside base) f.moves f.jumps :=
    ⟨fun hp hmove => hmoveOf _ _ _ ⟨hp.1, hp.2.1⟩ hmove,
      fun hp hjump => hjumpOf _ _ ⟨hp.1, hp.2.1⟩ hjump⟩
  constructor
  · intro hpath
    obtain ⟨n, hsteps⟩ := hpath.exists_steps
    obtain ⟨u, v, m, rfl, _, hu, hend⟩ := hf.sound honly hq hsteps
    -- No edge leaves the exit, so the path ends there.
    obtain ⟨rfl, rfl⟩ := hend.path.eq_of_final
      (fun c r hmove => by
        obtain ⟨set, he, _⟩ := hmoveOf _ _ _ hf.exit hmove
        exact (hf.move _ he).1.2.2 rfl)
      (fun r hjump => (hf.jump _ (hjumpOf _ _ hf.exit hjump)).1.2.2 rfl)
    rw [List.append_nil]
    exact ⟨rfl, hu⟩
  · rintro ⟨heq, hw⟩
    rw [heq]
    exact hf.complete hincludes hw

/-- Edges stay in the lexical state. -/
theorem closed (h : a.Placed i info b rs) (hlow : info.start ≤ p)
    (hhigh : p ≤ info.start + b.size)
    (hedge : (∃ set, a.move? p = some (set, q)) ∨ a.graph.jump p q) :
    info.start ≤ q ∧ q ≤ info.start + b.size := by
  rcases hedge with ⟨set, hmove⟩ | hjump
  · have := (h.lays.move _ ((h.move?_iff hlow hhigh).1 hmove)).2.1
    simp only at this
    omega
  · have := (h.lays.jump _ ((h.jump_iff hlow hhigh).1 hjump)).2
    simp only at this
    omega

end Placed

/-! ### The whole automaton -/

/-- The state is one of the lexical state. -/
def InLexState (a : Automaton) (i q : Nat) : Prop :=
  ∃ s, a.states[q]? = some s ∧ s.lexState = i

/-- What the automaton of a lexicon without errors has to do with the lexicon. -/
structure Implements (a : Automaton) (lexicon : Lexicon) : Prop where
  ruleCount : a.rules.size = lexicon.numbered.length
  stateCount : a.lexStates.size = lexicon.states.length
  nonempty : 0 < lexicon.states.length
  /-- Every rule is kept with its data. -/
  rule : ∀ {id i : Nat} {rule : Rule}, lexicon.numbered[id]? = some (i, rule) →
    ∃ info, a.rules[id]? = some info ∧ info.lexState = i ∧ info.ordinal = rule.ordinal ∧
      info.kind = rule.kind ∧ info.category = rule.category ∧
      info.nextState = (rule.nextState.bind fun next =>
        lexicon.states.findIdx? (·.name = next)) ∧
      (info.fragment.isSome ↔ ¬rule.regex.isEof = true ∧ ¬rule.regex.tag.hidden = true)
  /-- The fragment of a rule can be left at its exit only, with the texts of the rule. -/
  fragment : ∀ {id i : Nat} {rule : Rule} {info : RuleInfo} {entry exit : Nat},
    lexicon.numbered[id]? = some (i, rule) → a.rules[id]? = some info →
    info.fragment = some (entry, exit) →
    a.accept? exit = some ⟨id, rule.ordinal, rule.kind⟩ ∧
      ∀ {q : Nat} {w : List Char}, (a.accept? q).isSome →
        (a.graph.Path entry w q ↔ q = exit ∧ rule.Matches lexicon w)
  /-- Nothing but the exits of rules is accepted, each in the lexical state of its rule. -/
  accept : ∀ {q : Nat} {acc : Accept}, a.accept? q = some acc → ∃ info entry,
    a.rules[acc.rule]? = some info ∧ info.fragment = some (entry, q) ∧
      a.InLexState info.lexState q
  /-- The start state of a lexical state leads to its rules and does nothing else. -/
  start : ∀ {i : Nat} {info : LexStateInfo}, a.lexStates[i]? = some info →
    a.InLexState i info.start ∧ a.move? info.start = none ∧
      a.accept? info.start = none ∧
      ∀ q, a.graph.jump info.start q ↔ ∃ (id exit : Nat) (rule : RuleInfo),
        a.rules[id]? = some rule ∧ rule.lexState = i ∧ rule.fragment = some (q, exit)
  /-- Edges lead to states of the same lexical state. -/
  closed : ∀ {i p q : Nat}, a.InLexState i p →
    ((∃ set, a.move? p = some (set, q)) ∨ a.graph.jump p q) → a.InLexState i q
  /-- Every state belongs to a lexical state. -/
  lexState : ∀ {p : Nat} {s : State}, a.states[p]? = some s → s.lexState < a.lexStates.size
  regular : ∀ {p q : Nat} {set : Segments}, a.move? p = some (set, q) → set.Regular
  /-- Within a lexical state, later rules have larger ordinals. -/
  ordinal : ∀ {id id' i : Nat} {rule rule' : Rule}, lexicon.numbered[id]? = some (i, rule) →
    lexicon.numbered[id']? = some (i, rule') → id < id' → rule.ordinal < rule'.ordinal
  /-- The rule for the end of the input is the one rule of the lexical state that stands for it. -/
  eofRule : ∀ {i : Nat} {info : LexStateInfo} {id : Nat}, a.lexStates[i]? = some info →
    (info.eofRule = some id ↔
      ∃ rule, lexicon.numbered[id]? = some (i, rule) ∧ rule.regex.isEof = true)
  /-- The lexical state that a rule enters exists. -/
  nextState : ∀ {id i : Nat} {rule : Rule} {next : String},
    lexicon.numbered[id]? = some (i, rule) → rule.nextState = some next →
      ∃ j, lexicon.states.findIdx? (·.name = next) = some j
  /-- A lexical state is kept with its name and the numbers of its rules. -/
  state : ∀ {i : Nat} {info : LexStateInfo}, a.lexStates[i]? = some info →
    ∃ state, lexicon.states[i]? = some state ∧ info.name = state.name ∧
      info.firstRule = firstRuleOf lexicon.states i ∧
      info.endRule = info.firstRule + state.rules.length
  /-- A rule is shown by its name and its position. -/
  shown : ∀ {id i : Nat} {rule : Rule} {info : RuleInfo} {state : LexState},
    lexicon.numbered[id]? = some (i, rule) → a.rules[id]? = some info →
    lexicon.states[i]? = some state →
      info.name = rule.name ∧ info.pos = rule.regex.tag.pos.or state.pos

namespace Laid

variable {env : Environment} {states : List LexState} {p q : Nat}

/-- Every state lies in the block of a lexical state. -/
theorem exists_placed (h : Laid env a states) {s : State} (hs : a.states[p]? = some s) :
    ∃ i info b rs, i < a.lexStates.size ∧ a.Placed i info b rs ∧
      info.start ≤ p ∧ p ≤ info.start + b.size := by
  obtain ⟨i, state, info, b, hstate, hplaced, hrange⟩ :=
    h.covered p (Array.getElem?_eq_some_iff.1 hs).1
  rw [h.lexStates]
  exact ⟨i, info, b, _, (List.getElem?_eq_some_iff.1 hstate).1, hplaced, hrange⟩

/-- The data of a lexical state are those of its block. -/
theorem exists_lexState (h : Laid env a states) (hinfo : a.lexStates[i]? = some info) :
    ∃ state b, states[i]? = some state ∧ a.Placed i info b (Builder.rulesOf env i state) ∧
      info.firstRule = firstRuleOf states i := by
  have hlt := (Array.getElem?_eq_some_iff.1 hinfo).1
  rw [h.lexStates] at hlt
  obtain ⟨info', b, hplaced, hfirst⟩ := h.placed i _ (List.getElem?_eq_getElem hlt)
  have heq := hplaced.entry
  rw [hinfo] at heq
  cases heq
  exact ⟨_, b, List.getElem?_eq_getElem hlt, hplaced, hfirst⟩

/-- Edges lead to states of the same lexical state. -/
theorem closed (h : Laid env a states) (hp : a.InLexState i p)
    (hedge : (∃ set, a.move? p = some (set, q)) ∨ a.graph.jump p q) : a.InLexState i q := by
  obtain ⟨s, hs, rfl⟩ := hp
  obtain ⟨i, info, b, rs, _, hplaced, hlow, hhigh⟩ := h.exists_placed hs
  obtain ⟨hlow', hhigh'⟩ := hplaced.closed hlow hhigh hedge
  obtain ⟨s', hs', hstate'⟩ := hplaced.exists_state hlow' hhigh'
  exact ⟨s', hs', hstate'.lexState.trans (hplaced.states p s hlow hhigh hs).lexState.symm⟩

/-- Every state belongs to a lexical state. -/
theorem lexState_lt (h : Laid env a states) {s : State} (hs : a.states[p]? = some s) :
    s.lexState < a.lexStates.size := by
  obtain ⟨i, info, b, rs, hi, hplaced, hlow, hhigh⟩ := h.exists_placed hs
  rw [(hplaced.states p s hlow hhigh hs).lexState]
  exact hi

/-- Every move has a normalized set of characters. -/
theorem regular (h : Laid env a states) {set : Segments} (hmove : a.move? p = some (set, q)) :
    set.Regular := by
  obtain ⟨s, hs, -⟩ := Option.bind_eq_some_iff.1 hmove
  obtain ⟨i, info, b, rs, _, hplaced, hlow, hhigh⟩ := h.exists_placed hs
  exact (hplaced.lays.move _ ((hplaced.move?_iff hlow hhigh).1 hmove)).2.2

end Laid

/-! ### Proof -/

section Build

variable {lexicon : Lexicon} {options : Options} {state : LexState}

/-- What a resolved rule has to do with the rule. -/
structure Resolves (lexicon : Lexicon) (r : ResolvedRule) (rule : Rule) : Prop where
  same : r.rule = rule
  nextState : r.nextState = rule.nextState.bind fun next =>
    lexicon.states.findIdx? (·.name = next)
  pattern : r.pattern.isSome ↔ ¬rule.regex.isEof = true ∧ ¬rule.regex.tag.hidden = true
  texts : ∀ {p : Pattern}, r.pattern = some p →
    p.WellFormed ∧ ∀ w, p.Matches w ↔ rule.Matches lexicon w

/-- Every rule of a lexical state is resolved. -/
theorem exists_resolveRule (env : Environment) {index j : Nat} {rule : Rule}
    (hrule : state.rules[j]? = some rule) : ∃ site previous seen,
      (Builder.rulesOf env index state)[j]? =
        some (resolveRule env state site previous seen rule) := by
  have hlt : j < (Builder.rulesOf env index state).length := by
    unfold Builder.rulesOf
    rw [length_resolveRules]
    exact (List.getElem?_eq_some_iff.1 hrule).1
  have hr := List.getElem?_eq_getElem hlt
  obtain ⟨rule', site, previous, seen, hrule', heq⟩ := exists_getElem?_resolveRules hr
  rw [hrule] at hrule'
  cases hrule'
  exact ⟨site, previous, seen, by rw [hr, heq]⟩

/-- In a sound lexicon every rule is resolved to a pattern with its texts. -/
theorem exists_resolves (h : lexicon.Sound options) (hstate : lexicon.states[i]? = some state)
    {j : Nat} {r : ResolvedRule}
    (hr : (Builder.rulesOf (Builder.ofLexicon lexicon options).env i state)[j]? = some r) :
    ∃ rule, state.rules[j]? = some rule ∧ Resolves lexicon r rule := by
  have hsound := h.rules i state hstate r (List.mem_of_getElem? hr)
  obtain ⟨rule, site, previous, seen, hrule, rfl⟩ := exists_getElem?_resolveRules hr
  refine ⟨rule, hrule, rule_resolveRule, ?_, ?_, fun {p} hp => ?_⟩
  · rw [nextState_resolveRule]
    refine congrArg _ (funext fun next => ?_)
    exact Lexicon.getElem?_stateNames lexicon next
  · rw [pattern_resolveRule]
    split
    · rename_i hnone
      exact iff_of_false (by simp) fun hboth => hnone.elim hboth.1 hboth.2
    · rename_i hsome
      exact iff_of_true rfl (not_or.1 hsome)
  · rw [pattern_resolveRule] at hp
    split at hp
    · cases hp
    · rename_i hsome
      cases hp
      have hfound := hsound.findings
      rw [findings_resolveRule (not_or.1 hsome).1] at hfound
      exact Regex.resolved_resolve
        (fun name r => Lexicon.target_iff_labels h.labels name r) [] site rule.regex hfound

/-- The automaton keeps the lexical states of a sound lexicon. -/
structure Keeps (lexicon : Lexicon) (options : Options) (a : Automaton) : Prop where
  sound : lexicon.Sound options
  laid : Laid (Builder.ofLexicon lexicon options).env a lexicon.states

/-- The automaton of a lexicon keeps the rules of the lexicon. -/
theorem keeps_ofLexicon (h : BuiltCleanly lexicon options) :
    Keeps lexicon options (ofLexicon lexicon options).1 := by
  obtain ⟨heq, hsound⟩ := ofLexicon_eq h
  have hempty : Laid (Builder.ofLexicon lexicon options).env
      (Builder.ofLexicon lexicon options).automaton [] := laid_empty _
  have hrun := Builder.laid_addStates hempty fun j state hstate r hr p hp => by
      rw [List.length_nil, Nat.zero_add] at hr
      obtain ⟨k, hk⟩ := List.getElem?_of_mem hr
      obtain ⟨rule, _, hresolves⟩ := exists_resolves hsound hstate hk
      exact (hresolves.texts hp).1
  rw [heq]
  exact ⟨hsound, hrun⟩

/-- The automaton keeps a numbered rule in the block of its lexical state. -/
structure Found (lexicon : Lexicon) (a : Automaton) (id i : Nat) (rule : Rule)
    (info : LexStateInfo) (b : Block) (rs : List ResolvedRule) (j : Nat) (r : ResolvedRule) :
    Prop where
  placed : a.Placed i info b rs
  resolved : rs[j]? = some r
  resolves : Resolves lexicon r rule
  number : id = info.firstRule + j

namespace Found

variable {id j : Nat} {rule : Rule} {r : ResolvedRule}

/-- The data of the rule, and its fragment. -/
theorem exists_info (hf : Found lexicon a id i rule info b rs j r) :
    ∃ fragment, b.fragments[j]? = some fragment ∧
      a.rules[id]? = some (RuleInfo.ofRule i r fragment) ∧
      (fragment.isSome ↔ ¬rule.regex.isEof = true ∧ ¬rule.regex.tag.hidden = true) := by
  have hlt : j < b.fragments.length := by
    rw [hf.placed.lays.length]
    exact (List.getElem?_eq_some_iff.1 hf.resolved).1
  have hfragment := List.getElem?_eq_getElem hlt
  refine ⟨_, hfragment, ?_, ?_⟩
  · rw [hf.number]
    exact hf.placed.rules j r _ hf.resolved hfragment
  · rw [← hf.resolves.pattern]
    cases hpattern : r.pattern with
    | none =>
      have hnone := hf.placed.lays.unpatterned j r hf.resolved hpattern
      rw [hfragment] at hnone
      rw [Option.some.inj hnone]
      exact Iff.rfl
    | some p =>
      obtain ⟨_, _, _, _, _, hsome, _⟩ := hf.placed.lays.patterned j r p hf.resolved hpattern
      rw [hfragment] at hsome
      rw [Option.some.inj hsome]
      exact Iff.rfl

/-- The fragment of the rule is entered and left as its data say, and is held by the block. -/
theorem exists_fragment (hf : Found lexicon a id i rule info b rs j r) {entry exit : Nat}
    (hfragment : b.fragments[j]? = some (some (entry, exit))) :
    ∃ f base, f.Recognizes base (rule.Matches lexicon) ∧ info.start + 1 ≤ base ∧
      base + f.size ≤ info.start + 1 + b.size ∧ entry = f.entry ∧ exit = f.exit ∧
      b.Holds info.start f base ⟨id, rule.ordinal, rule.kind⟩ := by
  cases hpattern : r.pattern with
  | none =>
    have hnone := hf.placed.lays.unpatterned j r hf.resolved hpattern
    rw [hfragment] at hnone
    cases hnone
  | some p =>
    obtain ⟨f, base, hrecognizes, hlow, hhigh, hsome, hholds⟩ :=
      hf.placed.lays.patterned j r p hf.resolved hpattern
    rw [hfragment] at hsome
    cases hsome
    rw [← hf.number] at hholds
    unfold ResolvedRule.accept at hholds
    rw [hf.resolves.same] at hholds
    exact ⟨f, base, hrecognizes.congr (hf.resolves.texts hpattern).2, hlow, hhigh, rfl, rfl,
      hholds⟩

end Found

namespace Keeps

/-- Every numbered rule is found in the block of its lexical state. -/
theorem exists_found (h : Keeps lexicon options a) {id : Nat} {rule : Rule}
    (hrule : lexicon.numbered[id]? = some (i, rule)) :
    ∃ info b rs j r, Found lexicon a id i rule info b rs j r := by
  obtain ⟨j, state, hstate, hj, hid⟩ := Lexicon.exists_of_numbered hrule
  obtain ⟨info, b, hplaced, hfirst⟩ := h.laid.placed i state hstate
  obtain ⟨site, previous, seen, hr⟩ := exists_resolveRule _ hj
  obtain ⟨rule', hrule', hresolves⟩ := exists_resolves h.sound hstate hr
  rw [hj] at hrule'
  cases hrule'
  exact ⟨info, b, _, j, _, hplaced, hr, hresolves, by rw [hfirst]; exact hid⟩

/-- A fragment is a part of the automaton of its own: its exit accepts the rule, and from its entry
to an accepting state there are paths to its exit only, by the texts of the rule. -/
theorem fragment (h : Keeps lexicon options a) {id : Nat} {rule : Rule} {info : RuleInfo}
    {entry exit : Nat} (hrule : lexicon.numbered[id]? = some (i, rule))
    (hinfo : a.rules[id]? = some info) (hfragment : info.fragment = some (entry, exit)) :
    a.accept? exit = some ⟨id, rule.ordinal, rule.kind⟩ ∧
      ∀ {q : Nat} {w : List Char}, (a.accept? q).isSome →
        (a.graph.Path entry w q ↔ q = exit ∧ rule.Matches lexicon w) := by
  obtain ⟨linfo, b, rs, j, r, hf⟩ := h.exists_found hrule
  obtain ⟨fragment, hj, hinfo', -⟩ := hf.exists_info
  rw [hinfo] at hinfo'
  cases hinfo'
  rw [show fragment = some (entry, exit) from hfragment] at hj
  obtain ⟨f, base, hrecognizes, hlow, hhigh, rfl, rfl, hholds⟩ := hf.exists_fragment hj
  have hexit := hrecognizes.exit
  simp only [Fragment.Within] at hexit
  refine ⟨(hf.placed.accept?_iff (by omega) (by omega)).2 hholds.accept,
    fun {q w} hq => hf.placed.path_fragment_iff hrecognizes hlow hhigh hholds fun hin => ?_⟩
  -- A state inside the fragment accepts nothing.
  obtain ⟨acc, hacc⟩ := Option.isSome_iff_exists.1 hq
  have hwithin : f.Within base q := ⟨hin.1, hin.2.1⟩
  simp only [Fragment.Inside] at hin
  have := hholds.acceptOf _ ((hf.placed.accept?_iff (by omega) (by omega)).1 hacc) hwithin
  exact hin.2.2 (congrArg Prod.fst this)

/-- An accepting state is the exit of the fragment of the rule that it accepts. -/
theorem accept (h : Keeps lexicon options a) {q : Nat} {acc : Accept}
    (hacc : a.accept? q = some acc) : ∃ info entry, a.rules[acc.rule]? = some info ∧
      info.fragment = some (entry, q) ∧ a.InLexState info.lexState q := by
  obtain ⟨s, hs, -⟩ := Option.bind_eq_some_iff.1 hacc
  obtain ⟨i, info, b, rs, _, hplaced, hlow, hhigh⟩ := h.laid.exists_placed hs
  obtain ⟨j, r, entry, hr, hfragment, heq⟩ :=
    hplaced.lays.acceptOf _ ((hplaced.accept?_iff hlow hhigh).1 hacc)
  have hnumber : acc.rule = info.firstRule + j := congrArg Accept.rule heq
  rw [hnumber]
  exact ⟨_, entry, hplaced.rules j r _ hr hfragment, rfl, s, hs,
    (hplaced.states q s hlow hhigh hs).lexState⟩

/-- The start state jumps to the entries of the rules of its lexical state. -/
theorem jump_start_iff (h : Keeps lexicon options a) (hinfo : a.lexStates[i]? = some info)
    (q : Nat) : a.graph.jump info.start q ↔ ∃ (id exit : Nat) (rule : RuleInfo),
      a.rules[id]? = some rule ∧ rule.lexState = i ∧ rule.fragment = some (q, exit) := by
  obtain ⟨state, b, _, hplaced, _⟩ := h.laid.exists_lexState hinfo
  constructor
  · intro hjump
    obtain ⟨j, exit, hj⟩ := hplaced.lays.entryOf q
      ((hplaced.jump_iff (Nat.le_refl _) (Nat.le_add_right _ _)).1 hjump)
    have hlt := (List.getElem?_eq_some_iff.1 hj).1
    rw [hplaced.lays.length] at hlt
    exact ⟨_, exit, _, hplaced.rules j _ _ (List.getElem?_eq_getElem hlt) hj, rfl, rfl⟩
  · rintro ⟨id, exit, rule, hrule, hlexState, hfragment⟩
    have hlt := (Array.getElem?_eq_some_iff.1 hrule).1
    rw [h.laid.rules, ← Lexicon.length_numbered] at hlt
    obtain ⟨⟨i', rule'⟩, hnumbered⟩ : ∃ x, lexicon.numbered[id]? = some x :=
      ⟨_, List.getElem?_eq_getElem hlt⟩
    obtain ⟨linfo, b', rs, j, r, hf⟩ := h.exists_found hnumbered
    obtain ⟨fragment, hj, hrule', -⟩ := hf.exists_info
    rw [hrule] at hrule'
    cases hrule'
    rw [show fragment = some (q, exit) from hfragment] at hj
    obtain ⟨f, base, _, _, _, rfl, rfl, hholds⟩ := hf.exists_fragment hj
    -- The rule is one of this lexical state, so its block is the one behind the start state.
    have hsame := hf.placed.entry
    rw [show i' = i from hlexState, hinfo] at hsame
    cases hsame
    exact (hf.placed.jump_iff (Nat.le_refl _) (Nat.le_add_right _ _)).2 hholds.entry

/-- The start state has no move. -/
theorem move?_start (h : Keeps lexicon options a) (hinfo : a.lexStates[i]? = some info) :
    a.move? info.start = none := by
  obtain ⟨state, b, _, hplaced, _⟩ := h.laid.exists_lexState hinfo
  refine Option.eq_none_iff_forall_not_mem.2 fun ⟨set, q⟩ hmove => ?_
  have := (hplaced.lays.move _
    ((hplaced.move?_iff (Nat.le_refl _) (Nat.le_add_right _ _)).1 hmove)).1
  simp only at this
  omega

/-- The start state accepts no rule. -/
theorem accept?_start (h : Keeps lexicon options a) (hinfo : a.lexStates[i]? = some info) :
    a.accept? info.start = none := by
  obtain ⟨state, b, _, hplaced, _⟩ := h.laid.exists_lexState hinfo
  refine Option.eq_none_iff_forall_not_mem.2 fun acc hacc => ?_
  have := hplaced.lays.accept _
    ((hplaced.accept?_iff (Nat.le_refl _) (Nat.le_add_right _ _)).1 hacc)
  simp only at this
  omega

/-- In a lexical state, the order of the numbers of the rules is that of their ordinals. -/
theorem ordinal_lt (h : Keeps lexicon options a) {id id' : Nat} {rule rule' : Rule}
    (hrule : lexicon.numbered[id]? = some (i, rule))
    (hrule' : lexicon.numbered[id']? = some (i, rule')) (hlt : id < id') :
    rule.ordinal < rule'.ordinal := by
  obtain ⟨j, state, hstate, hj, rfl⟩ := Lexicon.exists_of_numbered hrule
  obtain ⟨j', state', hstate', hj', rfl⟩ := Lexicon.exists_of_numbered hrule'
  rw [hstate] at hstate'
  cases hstate'
  obtain ⟨hpairwise, -⟩ := ordinals_increase fun r hr =>
    (h.sound.rules i state hstate r hr).issues
  obtain ⟨hlt₁, rfl⟩ := List.getElem?_eq_some_iff.1 hj
  obtain ⟨hlt₂, rfl⟩ := List.getElem?_eq_some_iff.1 hj'
  exact List.pairwise_iff_getElem.1 hpairwise j j' hlt₁ hlt₂ (by omega)

/-- The rule for the end of the input is the one whose expression is the end of the input. -/
theorem eofRule_iff (h : Keeps lexicon options a) {id : Nat}
    (hinfo : a.lexStates[i]? = some info) : info.eofRule = some id ↔
      ∃ rule, lexicon.numbered[id]? = some (i, rule) ∧ rule.regex.isEof = true := by
  obtain ⟨state, b, hstate, hplaced, hfirst⟩ := h.laid.exists_lexState hinfo
  obtain ⟨hunique, -⟩ := isEof_unique fun r hr =>
    (h.sound.rules i state hstate r hr).issues
  have heof : info.eofRule =
      (state.rules.findIdx? fun rule => rule.regex.isEof).map (info.firstRule + ·) := by
    rw [hplaced.eofRule]
    unfold Builder.rulesOf
    rw [findIdx?_isEof_resolveRules]
  rw [heof, hfirst]
  constructor
  · intro h
    obtain ⟨j, hj, rfl⟩ := Option.map_eq_some_iff.1 h
    obtain ⟨hlt, hrule, -⟩ := List.findIdx?_eq_some_iff_getElem.1 hj
    refine ⟨state.rules[j], ?_, hrule⟩
    rw [Lexicon.getElem?_numbered hstate hlt, List.getElem?_eq_getElem hlt]
    rfl
  · rintro ⟨rule, hnumbered, hrule⟩
    obtain ⟨j, state', hstate', hj, rfl⟩ := Lexicon.exists_of_numbered hnumbered
    rw [hstate] at hstate'
    cases hstate'
    obtain ⟨hlt, rfl⟩ := List.getElem?_eq_some_iff.1 hj
    -- The first such rule is the only one, so the search stops at this one.
    refine Option.map_eq_some_iff.2 ⟨j, List.findIdx?_eq_some_iff_getElem.2 ⟨hlt, hrule,
      fun k hk hearlier => ?_⟩, rfl⟩
    exact List.pairwise_iff_getElem.1 hunique k j (by omega) hlt hk ⟨hearlier, hrule⟩

/-- The next state of a rule exists. -/
theorem exists_nextState (h : Keeps lexicon options a) {id : Nat} {rule : Rule} {next : String}
    (hrule : lexicon.numbered[id]? = some (i, rule)) (hnext : rule.nextState = some next) :
    ∃ j, lexicon.states.findIdx? (·.name = next) = some j := by
  obtain ⟨j, state, hstate, hj, rfl⟩ := Lexicon.exists_of_numbered hrule
  obtain ⟨site, previous, seen, hr⟩ := exists_resolveRule _ hj
  have hissues := (h.sound.rules i state hstate _ (List.mem_of_getElem? hr)).issues
  obtain ⟨k, hk⟩ := exists_of_resolveNext hnext (issues_resolveRule hissues).2.1
  exact ⟨k, by rw [← Lexicon.getElem?_stateNames]; exact hk⟩

/-- Every lexical state of the automaton is one of the lexicon, with the same name and rules. -/
theorem exists_state (h : Keeps lexicon options a) (hinfo : a.lexStates[i]? = some info) :
    ∃ state, lexicon.states[i]? = some state ∧ info.name = state.name ∧
      info.firstRule = firstRuleOf lexicon.states i ∧
      info.endRule = info.firstRule + state.rules.length := by
  obtain ⟨state, b, hstate, hplaced, hfirst⟩ := h.laid.exists_lexState hinfo
  refine ⟨state, hstate, ?_, hfirst, ?_⟩
  · -- The names are in the same order as the lexical states.
    have hnames := congrArg (·[i]?) h.laid.names
    simp only [List.getElem?_map, Array.getElem?_toList, hinfo, hstate, Option.map_some] at hnames
    exact Option.some.inj hnames
  · rw [hplaced.endRule]
    unfold Builder.rulesOf
    rw [length_resolveRules]

/-- In messages, a rule has the name and the position that the lexicon gives it. -/
theorem shown (h : Keeps lexicon options a) {id : Nat} {rule : Rule} {rinfo : RuleInfo}
    (hrule : lexicon.numbered[id]? = some (i, rule)) (hrinfo : a.rules[id]? = some rinfo)
    (hstate : lexicon.states[i]? = some state) :
    rinfo.name = rule.name ∧ rinfo.pos = rule.regex.tag.pos.or state.pos := by
  obtain ⟨j, state', hstate', hj, rfl⟩ := Lexicon.exists_of_numbered hrule
  rw [hstate] at hstate'
  cases hstate'
  obtain ⟨info, b, hplaced, hfirst⟩ := h.laid.placed i state hstate
  obtain ⟨site, previous, seen, hr⟩ := exists_resolveRule _ hj
  have hlt : j < b.fragments.length := by
    rw [hplaced.lays.length]
    exact (List.getElem?_eq_some_iff.1 hr).1
  have hkept := hplaced.rules j _ _ hr (List.getElem?_eq_getElem hlt)
  rw [hfirst, hrinfo] at hkept
  cases hkept
  exact ⟨name_resolveRule, pos_resolveRule⟩

end Keeps

/-- The automaton of a lexicon without errors implements it. -/
theorem implements_ofLexicon (h : BuiltCleanly lexicon options) :
    (ofLexicon lexicon options).1.Implements lexicon := by
  have hkeeps := keeps_ofLexicon h
  generalize (ofLexicon lexicon options).1 = a at hkeeps ⊢
  exact {
    ruleCount := by rw [hkeeps.laid.rules, Lexicon.length_numbered]
    stateCount := hkeeps.laid.lexStates
    nonempty := hkeeps.sound.nonempty
    rule := fun {id i rule} hrule => by
      obtain ⟨info, b, rs, j, r, hf⟩ := hkeeps.exists_found hrule
      obtain ⟨fragment, _, hinfo, hsome⟩ := hf.exists_info
      obtain ⟨hsame, hnext, -, -⟩ := hf.resolves
      subst hsame
      exact ⟨_, hinfo, rfl, rfl, rfl, rfl, hnext, hsome⟩
    fragment := hkeeps.fragment
    accept := hkeeps.accept
    start := fun {i info} hinfo => by
      obtain ⟨state, b, _, hplaced, _⟩ := hkeeps.laid.exists_lexState hinfo
      obtain ⟨s, hs, hstate⟩ := hplaced.exists_state (Nat.le_refl _) (Nat.le_add_right _ _)
      exact ⟨⟨s, hs, hstate.lexState⟩, hkeeps.move?_start hinfo, hkeeps.accept?_start hinfo,
        hkeeps.jump_start_iff hinfo⟩
    closed := hkeeps.laid.closed
    lexState := hkeeps.laid.lexState_lt
    regular := hkeeps.laid.regular
    ordinal := hkeeps.ordinal_lt
    eofRule := hkeeps.eofRule_iff
    nextState := hkeeps.exists_nextState
    state := hkeeps.exists_state
    shown := hkeeps.shown }

/-- Between entry and exit of the fragment of a rule, exactly the texts of the rule can be read.
Every rule has a fragment, unless it stands for the end of the input or is hidden. -/
theorem fragment_recognizes (h : BuiltCleanly lexicon options) :
    (ofLexicon lexicon options).1.rules.size = lexicon.numbered.length ∧
      ∀ (id i : Nat) (rule : Rule), lexicon.numbered[id]? = some (i, rule) →
        ∃ info, (ofLexicon lexicon options).1.rules[id]? = some info ∧
          (info.fragment.isSome ↔ ¬rule.regex.isEof = true ∧ ¬rule.regex.tag.hidden = true) ∧
          ∀ entry exit, info.fragment = some (entry, exit) → ∀ w : List Char,
            (ofLexicon lexicon options).1.graph.Path entry w exit ↔ rule.Matches lexicon w := by
  have himpl := implements_ofLexicon h
  refine ⟨himpl.ruleCount, fun id i rule hrule => ?_⟩
  obtain ⟨info, hinfo, -, -, -, -, -, hsome⟩ := himpl.rule hrule
  refine ⟨info, hinfo, hsome, fun entry exit hfragment w => ?_⟩
  obtain ⟨hexit, hpath⟩ := himpl.fragment hrule hinfo hfragment
  have haccepted : ((ofLexicon lexicon options).1.accept? exit).isSome := by
    rw [hexit]
    rfl
  exact (hpath haccepted).trans (and_iff_right rfl)

/-- The words of the sample lexicon are read between the entry and the exit of their rule. -/
theorem fragment_recognizes_words : BuiltCleanly Lexicon.words Options.quiet ∧
    ∃ rule info, Lexicon.words.numbered[0]? = some (0, rule) ∧
      (ofLexicon Lexicon.words Options.quiet).1.rules[0]? = some info ∧
      info.fragment.isSome ∧
      ∀ entry exit, info.fragment = some (entry, exit) → ∀ w : List Char,
        (ofLexicon Lexicon.words Options.quiet).1.graph.Path entry w exit ↔
          rule.Matches Lexicon.words w := by
  have hbuilt : BuiltCleanly Lexicon.words Options.quiet :=
    builtCleanly_of_hasNoErrors rfl hasNoErrors_words
  obtain ⟨-, hrules⟩ := fragment_recognizes hbuilt
  obtain ⟨info, hinfo, hfragment, hpaths⟩ := hrules 0 0 _ rfl
  exact ⟨hbuilt, _, info, rfl, hinfo, hfragment.2 (by decide), hpaths⟩

end Build

/-! ### From the start of a lexical state -/

namespace Implements

variable {lexicon : Lexicon} {q : Nat} {acc : Accept} {w : List Char}

/-- What is kept under a number belongs to the rule with this number. -/
theorem exists_numbered (h : a.Implements lexicon) {id : Nat} {info : RuleInfo}
    (hinfo : a.rules[id]? = some info) :
    ∃ rule, lexicon.numbered[id]? = some (info.lexState, rule) := by
  have hlt := (Array.getElem?_eq_some_iff.1 hinfo).1
  rw [h.ruleCount] at hlt
  obtain ⟨⟨i, rule⟩, hrule⟩ : ∃ x, lexicon.numbered[id]? = some x :=
    ⟨_, List.getElem?_eq_getElem hlt⟩
  obtain ⟨info', hinfo', rfl, -⟩ := h.rule hrule
  rw [hinfo] at hinfo'
  cases hinfo'
  exact ⟨rule, hrule⟩

/-- From the start state of a lexical state, exactly the texts of a rule lead to the state that
accepts it. -/
theorem path_start_iff (h : a.Implements lexicon) (hinfo : a.lexStates[i]? = some info)
    (hacc : a.accept? q = some acc) :
    a.graph.Path info.start w q ↔ ∃ rule, lexicon.numbered[acc.rule]? = some (i, rule) ∧
      acc = ⟨acc.rule, rule.ordinal, rule.kind⟩ ∧ rule.Matches lexicon w := by
  obtain ⟨-, hmove, haccept, hjump⟩ := h.start hinfo
  have hsome : (a.accept? q).isSome := by rw [hacc]; rfl
  constructor
  · intro hpath
    cases hpath with
    | refl =>
      rw [haccept] at hacc
      cases hacc
    | move hedge =>
      obtain ⟨set, hset, _⟩ := hedge
      rw [hmove] at hset
      cases hset
    | jump hedge rest =>
      -- The first jump enters the fragment of a rule, and the fragment decides what is read.
      obtain ⟨id, exit, rinfo, hrinfo, hlexState, hfragment⟩ := (hjump _).1 hedge
      obtain ⟨rule, hrule⟩ := h.exists_numbered hrinfo
      rw [hlexState] at hrule
      obtain ⟨hexit, hpaths⟩ := h.fragment hrule hrinfo hfragment
      obtain ⟨rfl, hmatches⟩ := (hpaths hsome).1 rest
      rw [hacc] at hexit
      cases hexit
      exact ⟨rule, hrule, rfl, hmatches⟩
  · intro ⟨rule, hrule, _, hmatches⟩
    obtain ⟨rinfo, entry, hrinfo, hfragment, -⟩ := h.accept hacc
    obtain ⟨rinfo', hrinfo', hlexState, -⟩ := h.rule hrule
    rw [hrinfo] at hrinfo'
    cases hrinfo'
    exact .jump ((hjump entry).2 ⟨_, q, rinfo, hrinfo, hlexState, hfragment⟩)
      (((h.fragment hrule hrinfo hfragment).2 hsome).2 ⟨rfl, hmatches⟩)

/-- Every text of a rule with a fragment leads to a state that accepts the rule. -/
theorem exists_path_start (h : a.Implements lexicon) (hinfo : a.lexStates[i]? = some info)
    {id : Nat} {rule : Rule} (hrule : lexicon.numbered[id]? = some (i, rule))
    (heof : ¬rule.regex.isEof = true) (hhidden : ¬rule.regex.tag.hidden = true)
    (hmatches : rule.Matches lexicon w) :
    ∃ q, a.accept? q = some ⟨id, rule.ordinal, rule.kind⟩ ∧ a.graph.Path info.start w q := by
  obtain ⟨rinfo, hrinfo, -, -, -, -, -, hsome⟩ := h.rule hrule
  obtain ⟨⟨entry, exit⟩, hfragment⟩ := Option.isSome_iff_exists.1 (hsome.2 ⟨heof, hhidden⟩)
  obtain ⟨hexit, -⟩ := h.fragment hrule hrinfo hfragment
  exact ⟨exit, hexit, (h.path_start_iff hinfo hexit).2 ⟨rule, hrule, rfl, hmatches⟩⟩

/-- A rule that is accepted neither stands for the end of the input nor is hidden. -/
theorem visible_of_accept (h : a.Implements lexicon) (hacc : a.accept? q = some acc)
    {rule : Rule} (hrule : lexicon.numbered[acc.rule]? = some (i, rule)) :
    ¬rule.regex.isEof = true ∧ ¬rule.regex.tag.hidden = true := by
  obtain ⟨rinfo, entry, hrinfo, hfragment, -⟩ := h.accept hacc
  obtain ⟨rinfo', hrinfo', -, -, -, -, -, hsome⟩ := h.rule hrule
  rw [hrinfo] at hrinfo'
  cases hrinfo'
  exact hsome.1 (by rw [hfragment]; rfl)

end Implements

end Automaton

end Lexwright

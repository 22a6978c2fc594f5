import Lexwright.Proofs.Automaton.Implements
import Lexwright.Proofs.Automaton.Tidy
import Mathlib.Data.Nat.Find

/-!
# `Lexwright.Proofs.Automaton.WellBuilt`: the form of every automaton

A lexicon in which something is wrong has an automaton too. Its languages are not those of the
lexicon, but its form is as good as that of any other automaton.

* `Automaton.WellBuilt`: the form of an automaton, and its rules.
* `Automaton.Kept`: a rule that the automaton keeps, with its place in the lexicon.
* `Automaton.wellBuilt_ofLexicon`: the automaton of every lexicon has that form.
-/

set_option autoImplicit false

namespace Lexwright

/-- An automaton in which blocks of states stand for the lexical states, and the exits of fragments
for the rules. -/
structure Automaton.WellBuilt (a : Automaton) (lexicon : Lexicon) : Prop where
  /-- The states of a lexical state follow each other, and its start state is the first. -/
  block : ∀ {i : Nat} {info : LexStateInfo}, a.lexStates[i]? = some info →
    ∃ stop, info.start < stop ∧ stop ≤ a.states.size ∧
      ∀ p, a.InLexState i p ↔ info.start ≤ p ∧ p < stop
  /-- Every state belongs to a lexical state. -/
  lexState : ∀ {p : Nat} {s : State}, a.states[p]? = some s → s.lexState < a.lexStates.size
  /-- Edges lead to states of the same lexical state. -/
  closed : ∀ {i p q : Nat}, a.InLexState i p →
    ((∃ set, a.move? p = some (set, q)) ∨ a.graph.jump p q) → a.InLexState i q
  /-- A move is for a set of characters, normalized and not empty. -/
  sets : ∀ {p q : Nat} {set : Segments}, a.move? p = some (set, q) →
    set.Regular ∧ ¬set.isEmpty = true
  /-- A state with a move does nothing else. -/
  moving : ∀ {p : Nat}, (a.move? p).isSome = true →
    (∀ q, ¬a.graph.jump p q) ∧ a.accept? p = none
  /-- No edge leaves an accepting state. -/
  accepting : ∀ {p : Nat}, (a.accept? p).isSome = true →
    a.move? p = none ∧ ∀ q, ¬a.graph.jump p q
  /-- What is accepted are the rules at the exits of their fragments. -/
  accept_iff : ∀ {q : Nat} {acc : Accept}, a.accept? q = some acc ↔ ∃ info entry,
    a.rules[acc.rule]? = some info ∧ info.fragment = some (entry, q) ∧
      acc = ⟨acc.rule, info.ordinal, info.kind⟩
  /-- A fragment lies in the lexical state of its rule. -/
  fragment : ∀ {id entry exit : Nat} {info : RuleInfo}, a.rules[id]? = some info →
    info.fragment = some (entry, exit) →
      a.InLexState info.lexState entry ∧ a.InLexState info.lexState exit
  /-- The rules are those of the lexicon, and just the rules for the end of the input and the
  hidden ones have no fragment. -/
  rule : ∀ {id : Nat} {info : RuleInfo}, a.rules[id]? = some info →
    ∃ rule, lexicon.numbered[id]? = some (info.lexState, rule) ∧ info.ordinal = rule.ordinal ∧
      info.kind = rule.kind ∧ info.isEof = rule.regex.isEof ∧
      (info.fragment = none ↔ rule.regex.isEof = true ∨ rule.regex.tag.hidden = true)
  /-- No lexical state and no rule is left out, unless there is no lexical state or too many. -/
  complete : 0 < lexicon.states.length → lexicon.states.length ≤ maxLexStates →
    a.lexStates.size = lexicon.states.length ∧ a.rules.size = lexicon.numbered.length

namespace Automaton

variable {a : Automaton} {i p q id : Nat} {info : LexStateInfo} {b : Block}
  {rs : List ResolvedRule} {env : Environment}

/-! ### One block -/

namespace Placed

/-- The exit of a fragment has no edges: the fragment puts none on it, and the block only has the
edges of fragments. -/
theorem no_edge_of_accept (h : a.Placed i info b rs) (hlow : info.start ≤ p)
    (hhigh : p ≤ info.start + b.size) {acc : Accept} (hacc : a.accept? p = some acc) :
    a.move? p = none ∧ ∀ q, ¬a.graph.jump p q := by
  have hmem := (h.accept?_iff hlow hhigh).1 hacc
  obtain ⟨j, r, entry, hr, hfragment, -⟩ := h.lays.acceptOf _ hmem
  cases hpattern : r.pattern with
  | none =>
    have := h.lays.unpatterned j r hr hpattern
    rw [hfragment] at this
    cases this
  | some pattern =>
    obtain ⟨f, base, hf, -, -, hsome, hholds⟩ := h.lays.patterned j r pattern hr hpattern
    rw [hfragment] at hsome
    cases hsome
    refine ⟨Option.eq_none_iff_forall_not_mem.2 fun ⟨set, q⟩ hmove => ?_, fun q hjump => ?_⟩
    · have he := hholds.moveOf _ ((h.move?_iff hlow hhigh).1 hmove) hf.exit
      exact (hf.move _ he).1.2.2 rfl
    · have he := hholds.jumpOf _ ((h.jump_iff hlow hhigh).1 hjump) hf.exit
      exact (hf.jump _ he).1.2.2 rfl

/-- The states of a block belong to its lexical state. -/
theorem inLexState (h : a.Placed i info b rs) (hlow : info.start ≤ p)
    (hhigh : p ≤ info.start + b.size) : a.InLexState i p := by
  obtain ⟨s, hs, hstate⟩ := h.exists_state hlow hhigh
  exact ⟨s, hs, hstate.lexState⟩

end Placed

/-! ### The lexical states -/

/-- Numbers from `start` on that are closed downwards, and not all numbers, are an interval. -/
theorem exists_stop {P : Nat → Prop} {start bound : Nat} (hstart : P start)
    (hbound : ∀ p, P p → p < bound)
    (hdown : ∀ p, P p → start ≤ p ∧ ∀ q, start ≤ q → q ≤ p → P q) :
    ∃ stop, start < stop ∧ stop ≤ bound ∧ ∀ p, P p ↔ start ≤ p ∧ p < stop := by
  classical
  have hexists : ∃ stop, start ≤ stop ∧ ¬P stop :=
    ⟨bound, Nat.le_of_lt (hbound start hstart), fun h => Nat.lt_irrefl _ (hbound _ h)⟩
  obtain ⟨hlow, hstop⟩ := Nat.find_spec hexists
  have hbefore : ∀ p, start ≤ p → p < Nat.find hexists → P p := fun p hp hlt =>
    not_not.1 fun hnot => Nat.find_min hexists hlt ⟨hp, hnot⟩
  refine ⟨Nat.find hexists, ?_, ?_, fun p => ⟨fun hp => ?_, fun hp => hbefore p hp.1 hp.2⟩⟩
  · exact Nat.lt_of_le_of_ne hlow fun heq => hstop (heq ▸ hstart)
  · exact Nat.find_min' hexists
      ⟨Nat.le_of_lt (hbound start hstart), fun h => Nat.lt_irrefl _ (hbound _ h)⟩
  · obtain ⟨hle, hall⟩ := hdown p hp
    exact ⟨hle, Nat.lt_of_not_le fun hge => hstop (hall _ hlow hge)⟩

namespace Laid

variable {states : List LexState}

/-- The states of a lexical state follow each other. -/
theorem exists_block (h : Laid env a states) (hinfo : a.lexStates[i]? = some info) :
    ∃ stop, info.start < stop ∧ stop ≤ a.states.size ∧
      ∀ p, a.InLexState i p ↔ info.start ≤ p ∧ p < stop := by
  obtain ⟨state, b, -, hplaced, -⟩ := h.exists_lexState hinfo
  refine exists_stop (hplaced.inLexState (Nat.le_refl _) (Nat.le_add_right _ _))
    (fun p ⟨s, hs, _⟩ => (Array.getElem?_eq_some_iff.1 hs).1) fun p ⟨s, hs, hi⟩ => ?_
  -- The state lies in some block, which is tagged with its lexical state.
  obtain ⟨i', info', b', rs', -, hplaced', hlow, hhigh⟩ := h.exists_placed hs
  have hsame : i' = i := (hplaced'.states p s hlow hhigh hs).lexState.symm.trans hi
  subst hsame
  have hentry := hplaced'.entry
  rw [hinfo] at hentry
  cases hentry
  exact ⟨hlow, fun q hq hle => hplaced'.inLexState hq (Nat.le_trans hle hhigh)⟩

/-- An accepting state has neither a move nor a jump. -/
theorem accepting (h : Laid env a states) (haccept : (a.accept? p).isSome = true) :
    a.move? p = none ∧ ∀ q, ¬a.graph.jump p q := by
  obtain ⟨acc, hacc⟩ := Option.isSome_iff_exists.1 haccept
  obtain ⟨s, hs, -⟩ := Option.bind_eq_some_iff.1 hacc
  obtain ⟨i, info, b, rs, -, hplaced, hlow, hhigh⟩ := h.exists_placed hs
  exact hplaced.no_edge_of_accept hlow hhigh hacc

end Laid

/-! ### The rules -/

/-- The automaton keeps rule number `id` of the lexicon, the `j`-th one of its lexical state. -/
structure Kept (lexicon : Lexicon) (a : Automaton) (id i : Nat) (rule : Rule) (rinfo : RuleInfo)
    (info : LexStateInfo) (b : Block) (rs : List ResolvedRule) (j : Nat) (r : ResolvedRule) :
    Prop where
  numbered : lexicon.numbered[id]? = some (i, rule)
  placed : a.Placed i info b rs
  resolved : rs[j]? = some r
  same : r.rule = rule
  pattern : r.pattern = none ↔ rule.regex.isEof = true ∨ rule.regex.tag.hidden = true
  fragment : b.fragments[j]? = some rinfo.fragment
  data : rinfo = RuleInfo.ofRule i r rinfo.fragment
  number : id = info.firstRule + j

section Kept

variable {lexicon : Lexicon} {rule : Rule} {rinfo : RuleInfo} {j : Nat} {r : ResolvedRule}
  {entry exit : Nat}

/-- Every rule of the automaton is one of the lexicon. -/
theorem Laid.exists_kept (h : Laid env a lexicon.states) (hrinfo : a.rules[id]? = some rinfo) :
    ∃ i rule info b rs j r, Kept lexicon a id i rule rinfo info b rs j r := by
  have hlt := (Array.getElem?_eq_some_iff.1 hrinfo).1
  rw [h.rules, ← Lexicon.length_numbered] at hlt
  obtain ⟨⟨i, rule⟩, hnumbered⟩ : ∃ x, lexicon.numbered[id]? = some x :=
    ⟨_, List.getElem?_eq_getElem hlt⟩
  -- From the number of the rule to its lexical state, and from there to the block of this state.
  obtain ⟨j, state, hstate, hj, hid⟩ := Lexicon.exists_of_numbered hnumbered
  obtain ⟨info, b, hplaced, hfirst⟩ := h.placed i state hstate
  obtain ⟨site, previous, seen, hr⟩ := exists_resolveRule env hj
  have hfragment : j < b.fragments.length := by
    rw [hplaced.lays.length]
    exact (List.getElem?_eq_some_iff.1 hr).1
  have hkept := hplaced.rules j _ _ hr (List.getElem?_eq_getElem hfragment)
  rw [hfirst, ← hid, hrinfo] at hkept
  cases hkept
  refine ⟨i, rule, info, b, _, j, _, {
    numbered := hnumbered, placed := hplaced, resolved := hr, same := rule_resolveRule
    pattern := ?_, fragment := List.getElem?_eq_getElem hfragment, data := rfl
    number := by rw [hfirst]; exact hid }⟩
  rw [pattern_resolveRule]
  split
  · rename_i hnone
    exact iff_of_true rfl hnone
  · rename_i hsome
    exact iff_of_false (fun h => nomatch h) hsome

namespace Kept

/-- A rule has no fragment exactly if it is the end of the input or hidden. -/
theorem fragment_eq_none_iff (h : Kept lexicon a id i rule rinfo info b rs j r) :
    rinfo.fragment = none ↔ rule.regex.isEof = true ∨ rule.regex.tag.hidden = true := by
  rw [← h.pattern]
  have hfragment := h.fragment
  cases hpattern : r.pattern with
  | none =>
    rw [h.placed.lays.unpatterned j r h.resolved hpattern] at hfragment
    exact iff_of_true (Option.some.inj hfragment).symm rfl
  | some p =>
    obtain ⟨f, base, -, -, -, hsome, -⟩ := h.placed.lays.patterned j r p h.resolved hpattern
    rw [hsome] at hfragment
    exact iff_of_false (fun hnone => by rw [hnone] at hfragment; cases hfragment)
      (fun hnone => nomatch hnone)

/-- The fragment lies in the block of the lexical state, which accepts the rule at its exit. -/
theorem accept?_exit (h : Kept lexicon a id i rule rinfo info b rs j r)
    (hfragment : rinfo.fragment = some (entry, exit)) :
    a.InLexState i entry ∧ a.InLexState i exit ∧
      a.accept? exit = some ⟨id, rule.ordinal, rule.kind⟩ := by
  have hj := h.fragment
  rw [hfragment] at hj
  cases hpattern : r.pattern with
  | none =>
    rw [h.placed.lays.unpatterned j r h.resolved hpattern] at hj
    cases hj
  | some p =>
    obtain ⟨f, base, hf, hlow, hhigh, hsome, hholds⟩ :=
      h.placed.lays.patterned j r p h.resolved hpattern
    rw [hsome] at hj
    cases hj
    have hentry := hf.entry
    have hexit := hf.exit
    simp only [Fragment.Within] at hentry hexit
    refine ⟨h.placed.inLexState (by omega) (by omega),
      h.placed.inLexState (by omega) (by omega), ?_⟩
    rw [h.placed.accept?_iff (by omega) (by omega), h.number, ← h.same]
    exact hholds.accept

end Kept

/-- The accepting states are the exits of the fragments, and each accepts the rule of its
fragment. -/
theorem Laid.accept_iff (h : Laid env a lexicon.states) {acc : Accept} :
    a.accept? q = some acc ↔ ∃ info entry, a.rules[acc.rule]? = some info ∧
      info.fragment = some (entry, q) ∧ acc = ⟨acc.rule, info.ordinal, info.kind⟩ := by
  constructor
  · intro hacc
    obtain ⟨s, hs, -⟩ := Option.bind_eq_some_iff.1 hacc
    obtain ⟨i, info, b, rs, -, hplaced, hlow, hhigh⟩ := h.exists_placed hs
    obtain ⟨j, r, entry, hr, hfragment, heq⟩ :=
      hplaced.lays.acceptOf _ ((hplaced.accept?_iff hlow hhigh).1 hacc)
    subst heq
    exact ⟨_, entry, hplaced.rules j r _ hr hfragment, rfl, rfl⟩
  · rintro ⟨rinfo, entry, hrinfo, hfragment, heq⟩
    obtain ⟨i, rule, info, b, rs, j, r, hkept⟩ := h.exists_kept hrinfo
    obtain ⟨-, -, hacc⟩ := hkept.accept?_exit hfragment
    rw [hacc, heq, hkept.data, ← hkept.same]
    rfl

end Kept

/-! ### The automaton of a lexicon -/

/-- Nothing is laid out for a lexicon without lexical states, or with too many. -/
theorem wellBuilt_empty {lexicon : Lexicon}
    (h : ¬(0 < lexicon.states.length ∧ lexicon.states.length ≤ maxLexStates)) :
    WellBuilt {} lexicon where
  block hinfo := nomatch hinfo
  lexState hs := nomatch hs
  closed := fun ⟨_, hs, _⟩ => nomatch hs
  sets hmove := nomatch hmove
  moving hmove := nomatch hmove
  accepting haccept := nomatch haccept
  accept_iff := iff_of_false (fun haccept => nomatch haccept) fun ⟨_, _, hinfo, _⟩ => nomatch hinfo
  fragment hinfo := nomatch hinfo
  rule hinfo := nomatch hinfo
  complete hpos hle := absurd ⟨hpos, hle⟩ h

/-- Tidy states in blocks make a well-built automaton. -/
theorem Laid.wellBuilt {lexicon : Lexicon} (h : Laid env a lexicon.states)
    (htidy : ∀ s ∈ a.states, s.Tidy) : a.WellBuilt lexicon where
  block := h.exists_block
  lexState := h.lexState_lt
  closed := h.closed
  sets {p q set} hmove := by
    obtain ⟨s, hs, hset⟩ := Option.bind_eq_some_iff.1 hmove
    exact ⟨h.regular hmove, (htidy s (Array.mem_of_getElem? hs)).nonempty set q hset⟩
  moving {p} hmove := by
    constructor
    · -- A state that moves has no jumps, and it accepts nothing.
      rintro q ⟨s, hs, hq⟩
      unfold move? at hmove
      rw [hs] at hmove
      rw [(htidy s (Array.mem_of_getElem? hs)).apart hmove] at hq
      exact Array.not_mem_empty q hq
    · refine Option.not_isSome_iff_eq_none.1 fun haccept => ?_
      rw [(h.accepting haccept).1] at hmove
      cases hmove
  accepting := h.accepting
  accept_iff := h.accept_iff
  fragment {id entry exit info} hinfo hfragment := by
    obtain ⟨i, rule, linfo, b, rs, j, r, hkept⟩ := h.exists_kept hinfo
    obtain ⟨hentry, hexit, -⟩ := hkept.accept?_exit hfragment
    rw [hkept.data]
    exact ⟨hentry, hexit⟩
  rule {id info} hinfo := by
    obtain ⟨i, rule, linfo, b, rs, j, r, hkept⟩ := h.exists_kept hinfo
    refine ⟨rule, ?_, ?_, ?_, ?_, hkept.fragment_eq_none_iff⟩
    · rw [hkept.data]
      exact hkept.numbered
    all_goals
      rw [hkept.data, ← hkept.same]
      rfl
  complete _ _ := ⟨h.lexStates, by rw [h.rules, Lexicon.length_numbered]⟩

/-- The automaton of every lexicon is well-built, also if something is wrong in the lexicon. -/
theorem wellBuilt_ofLexicon (lexicon : Lexicon) (options : Options) :
    (ofLexicon lexicon options).1.WellBuilt lexicon := by
  unfold ofLexicon
  simp only
  split
  · exact wellBuilt_empty fun h => by omega
  · split
    · exact wellBuilt_empty fun h => by omega
    · have hempty : Laid (Builder.ofLexicon lexicon options).env
          (Builder.ofLexicon lexicon options).automaton [] := laid_empty _
      have hlaid : Laid (Builder.ofLexicon lexicon options).env
          ((Builder.ofLexicon lexicon options).addStates lexicon.states.zipIdx).automaton
          lexicon.states :=
        Builder.laid_addStates hempty
          fun j state _ r hr p hp => (Builder.sturdy_rulesOf r hr p hp).wellFormed
      refine Laid.wellBuilt hlaid (Builder.tidy_addStates (fun s hs => ?_) _)
      exact absurd hs (Array.not_mem_empty s)

end Automaton

end Lexwright

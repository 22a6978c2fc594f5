import Lexwright.Proofs.Automaton.Tidy

/-!
# `Lexwright.Proofs.Automaton.Stepwise`: laying out one rule after another

`Builder.addState` puts all the states of a lexical state behind the others at once, and does not
lay out its hidden rules. Here the array of states grows rule by rule. The fragment of a rule is
laid behind the states that there are, and its edges are written to the array. The fragment of a
hidden rule is laid out too, and is cut off again.

* `Block.layOut`: new states behind the others, with the edges and rules of a block written to them.
* `Builder.layRule`, `Builder.layRules`: one rule, and all the rules of a lexical state.
* `Builder.layRule_of_hidden`: after a hidden rule the states are what they were before it.
* `Builder.layRules_eq`: rule by rule, the states are those that `addState` gives.
-/

set_option autoImplicit false

namespace Lexwright

namespace Block

variable {b c : Block} {lexState base j : Nat} {states : Array State}

/-- Puts the states of a block behind the others, and writes its moves, jumps and accepted rules to
the states that they name. -/
def layOut (b : Block) (lexState : Nat) (states : Array State) : Array State :=
  let blank := states ++ Array.replicate b.size ({ lexState } : State)
  let moved := b.moves.foldl
    (fun s m => s.modify m.source fun q => { q with move := some (m.set, m.target) }) blank
  let jumped := b.jumps.foldl
    (fun s j => s.modify j.source fun q => { q with jumps := q.jumps.push j.target }) moved
  b.accepts.foldl (fun s a => s.modify a.1 fun q => { q with accept := some a.2 }) jumped

/-- An edge of the block leaves the state, or a rule is accepted there. -/
def Names (b : Block) (j : Nat) : Prop :=
  (∃ e ∈ b.moves, e.source = j) ∨ (∃ e ∈ b.jumps, e.source = j) ∨ ∃ x ∈ b.accepts, x.1 = j

/-- What the block writes to state number `j`. -/
def write (b : Block) (j : Nat) (s : State) : State where
  lexState := s.lexState
  move := ((b.moves.filter (·.source = j)).getLast?.map fun m => (m.set, m.target)).or s.move
  jumps := s.jumps ++ ((b.jumps.filter (·.source = j)).map Jump.target).toArray
  accept := ((b.accepts.filter (·.1 = j)).getLast?.map Prod.snd).or s.accept

/-- Laying a block out behind some states writes its entries into them and into as many new states
as it has. -/
theorem getElem?_layOut : (b.layOut lexState states)[j]? =
    ((states ++ Array.replicate b.size ({ lexState } : State))[j]?).map (b.write j) := by
  unfold layOut
  simp only [getElem?_foldl_modify, Option.map_map]
  refine congrArg (Option.map · _) (funext fun s => ?_)
  simp only [Function.comp_apply, foldl_move, foldl_jump, foldl_accept]
  rfl

/-- A block that is laid out adds its states. -/
theorem size_layOut : (b.layOut lexState states).size = states.size + b.size := by
  simp [layOut, size_foldl_modify]

/-- A state that the block does not name stays as it is. -/
theorem write_of_not_names (h : ¬b.Names j) (s : State) : b.write j s = s := by
  simp only [Names, not_or, not_exists, not_and] at h
  have hmoves : b.moves.filter (·.source = j) = [] := by
    simpa [List.filter_eq_nil_iff] using h.1
  have hjumps : b.jumps.filter (·.source = j) = [] := by
    simpa [List.filter_eq_nil_iff] using h.2.1
  have haccepts : b.accepts.filter (·.1 = j) = [] := by
    simpa [List.filter_eq_nil_iff] using h.2.2
  simp [write, hmoves, hjumps, haccepts]

/-- Where no older state is named, the older states stay as they are. -/
theorem getElem?_layOut_of_lt (h : ∀ j, b.Names j → states.size ≤ j) (hj : j < states.size) :
    (b.layOut lexState states)[j]? = states[j]? := by
  have hwrite : b.write j = id :=
    funext (write_of_not_names fun hnames => Nat.not_le_of_lt hj (h j hnames))
  rw [getElem?_layOut, Array.getElem?_append_left hj, hwrite, Option.map_id_fun, id]

/-- So what was laid out can be cut off again. -/
theorem take_layOut (h : ∀ j, b.Names j → states.size ≤ j) :
    (b.layOut lexState states).take states.size = states := by
  refine Array.ext_getElem? fun j => ?_
  simp only [Array.take_eq_extract, Array.getElem?_extract, size_layOut, Nat.zero_add]
  split
  · exact getElem?_layOut_of_lt h (by omega)
  · rw [Array.getElem?_eq_none (by omega)]

/-- The states of a block behind older states are those that the block lays out there. -/
theorem layOut_eq_append (h : ∀ j, b.Names j → states.size ≤ j) :
    b.layOut lexState states = states ++ b.states lexState states.size := by
  refine Array.ext_getElem? fun j => ?_
  by_cases hlt : j < states.size
  · rw [getElem?_layOut_of_lt h hlt, Array.getElem?_append_left hlt]
  · obtain ⟨k, rfl⟩ : ∃ k, j = states.size + k := ⟨j - states.size, by omega⟩
    have hmoves : ∀ e ∈ b.moves, states.size ≤ e.source :=
      fun e he => h _ (Or.inl ⟨e, he, rfl⟩)
    have hjumps : ∀ e ∈ b.jumps, states.size ≤ e.source :=
      fun e he => h _ (Or.inr (Or.inl ⟨e, he, rfl⟩))
    have haccepts : ∀ x ∈ b.accepts, states.size ≤ x.1 :=
      fun x hx => h _ (Or.inr (Or.inr ⟨x, hx, rfl⟩))
    rw [getElem?_layOut, Array.getElem?_append_right (Nat.le_add_right ..),
      Array.getElem?_append_right (Nat.le_add_right ..), Nat.add_sub_cancel_left, Block.states]
    simp only [getElem?_foldl_modify, filter_sub_eq hmoves, filter_sub_eq hjumps,
      filter_sub_eq haccepts, Option.map_map]
    refine congrArg (Option.map · _) (funext fun s => ?_)
    simp only [Function.comp_apply, foldl_move, foldl_jump, foldl_accept]
    rfl

/-- The lists of two blocks, one behind the other. -/
def append (b c : Block) : Block where
  size := b.size + c.size
  moves := b.moves ++ c.moves
  jumps := b.jumps ++ c.jumps
  accepts := b.accepts ++ c.accepts
  fragments := b.fragments ++ c.fragments

/-- Two blocks in one are written one after the other. -/
theorem write_append (s : State) : (b.append c).write j s = c.write j (b.write j s) := by
  simp [write, append, List.filter_append, List.getLast?_append, Option.map_or, Option.or_assoc]

/-- To lay out two blocks at once is to lay out one after the other. -/
theorem layOut_append (h : ∀ j, b.Names j → j < states.size + b.size) :
    (b.append c).layOut lexState states = c.layOut lexState (b.layOut lexState states) := by
  refine Array.ext_getElem? fun j => ?_
  have hblank : states ++ Array.replicate (b.append c).size ({ lexState } : State) =
      (states ++ Array.replicate b.size ({ lexState } : State)) ++
        Array.replicate c.size ({ lexState } : State) := by
    rw [Array.append_assoc, Array.replicate_append_replicate]
    rfl
  have hsize : (states ++ Array.replicate b.size ({ lexState } : State)).size =
      states.size + b.size := by
    simp
  have hearlier : (b.layOut lexState states)[j]? =
      (states ++ Array.replicate b.size ({ lexState } : State))[j]?.map (b.write j) :=
    getElem?_layOut
  have hlaid : (b.layOut lexState states).size = states.size + b.size := size_layOut
  rw [getElem?_layOut, getElem?_layOut, hblank]
  generalize states ++ Array.replicate b.size ({ lexState } : State) = blank at hsize hearlier
  generalize b.layOut lexState states = laid at hlaid hearlier
  by_cases hlt : j < states.size + b.size
  · rw [Array.getElem?_append_left (hsize ▸ hlt), Array.getElem?_append_left (hlaid ▸ hlt),
      hearlier, Option.map_map]
    exact congrArg (Option.map · _) (funext fun s => write_append s)
  · -- The states of the later block are new to the earlier one.
    have hwrite : (b.append c).write j = c.write j := funext fun s => by
      rw [write_append, write_of_not_names fun hnames => hlt (h j hnames)]
    rw [Array.getElem?_append_right (by omega), Array.getElem?_append_right (by omega), hsize,
      hlaid, hwrite]

end Block

namespace Builder

/-! ### One rule -/

/-- The fragment of a rule's expression behind `base` states, whether or not the rule is hidden. -/
def fragmentOf (env : Environment) (site : Site) (rule : Rule) (base : Nat) : Fragment :=
  (rule.regex.resolve ⟨env.labels, env.limit, rule.ignoreCase⟩ [] site).1.fragment base

/-- The states after one more rule of a lexical state whose start state is number `start`. The
fragment of the rule is laid out behind the other states. If the rule is hidden, it is cut off
again; else the start state jumps to its entry, and its exit accepts the rule. -/
def layRule (env : Environment) (start lexState id : Nat) (site : Site) (rule : Rule)
    (states : Array State) : Array State :=
  if rule.regex.isEof then states
  else
    let f := fragmentOf env site rule states.size
    let laid := Block.layOut ⟨f.size, f.moves, f.jumps, [], []⟩ lexState states
    if rule.regex.tag.hidden then laid.take states.size
    else
      let entered := laid.modify start fun q => { q with jumps := q.jumps.push f.entry }
      entered.modify f.exit fun q => { q with accept := some ⟨id, rule.ordinal, rule.kind⟩ }

/-- The states after the rules of a lexical state from the `i`-th on, of which the first has number
`id`. -/
def layRules (env : Environment) (start lexState index : Nat) (i id : Nat) :
    List Rule → Array State → Array State
  | [], states => states
  | rule :: rest, states =>
    layRules env start lexState index (i + 1) (id + 1) rest
      (layRule env start lexState id ⟨index, i, []⟩ rule states)

variable {env : Environment} {start lexState index i id : Nat} {site : Site} {rule : Rule}
  {states : Array State}

/-- The fragment of a rule recognizes the pattern to which its expression is resolved. -/
theorem recognizes_fragmentOf (env : Environment) (site : Site) (rule : Rule) (base : Nat) :
    (fragmentOf env site rule base).Recognizes base
      (rule.regex.resolve ⟨env.labels, env.limit, rule.ignoreCase⟩ [] site).1.Matches :=
  Pattern.recognizes_fragment (Regex.sturdy_resolve _ [] site rule.regex).wellFormed base

/-- The edges of a fragment leave its own states only. -/
theorem within_of_names {f : Fragment} {base j : Nat} (h : f.Fits base)
    (hnames : Block.Names ⟨f.size, f.moves, f.jumps, [], []⟩ j) : f.Within base j := by
  rcases hnames with ⟨e, he, rfl⟩ | ⟨e, he, rfl⟩ | ⟨x, hx, -⟩
  · have := (h.move e he).1
    simp only [Fragment.Inside] at this
    exact ⟨this.1, this.2.1⟩
  · have := (h.jump e he).1
    simp only [Fragment.Inside] at this
    exact ⟨this.1, this.2.1⟩
  · exact absurd hx List.not_mem_nil

/-- A hidden rule leaves no trace: all that its fragment writes is cut off again. -/
theorem layRule_of_hidden (hhidden : rule.regex.tag.hidden = true) :
    layRule env start lexState id site rule states = states := by
  unfold layRule
  rw [if_pos hhidden]
  split
  · rfl
  · refine Block.take_layOut fun j hnames => ?_
    exact (within_of_names (recognizes_fragmentOf env site rule states.size).toFits hnames).1

/-! ### All the rules of a lexical state -/

/-- The block of one rule with a fragment. -/
def ruleBlock (start : Nat) (f : Fragment) (acc : Accept) : Block :=
  .cons start f acc ⟨0, [], [], [], []⟩

/-- One more rule is a block of its own in front of the others. -/
theorem cons_eq_append (f : Fragment) (acc : Accept) (later : Block) :
    Block.cons start f acc later = (ruleBlock start f acc).append later := by
  simp [Block.cons, ruleBlock, Block.append]

/-- The rule's own block names the start state and states of the fragment. -/
theorem lt_of_names_ruleBlock {f : Fragment} {acc : Accept} {base j : Nat} (h : f.Fits base)
    (hstart : start < base) (hnames : (ruleBlock start f acc).Names j) :
    j < base + (ruleBlock start f acc).size := by
  have hsize : (ruleBlock start f acc).size = f.size := rfl
  rw [hsize]
  rcases hnames with ⟨e, he, rfl⟩ | ⟨e, he, rfl⟩ | ⟨x, hx, rfl⟩
  · rw [ruleBlock, Block.cons, List.append_nil] at he
    exact (h.move e he).1.2.1
  · rcases Block.mem_jumps_cons.1 he with he | rfl | he
    · exact (h.jump e he).1.2.1
    · exact Nat.lt_of_lt_of_le hstart (Nat.le_add_right ..)
    · exact absurd he List.not_mem_nil
  · rw [List.mem_singleton.1 hx]
    exact h.exit.2

/-- A rule that is neither hidden nor for the end of the input is laid out as its block. -/
theorem layRule_of_visible (heof : ¬rule.regex.isEof = true)
    (hvisible : ¬rule.regex.tag.hidden = true) :
    layRule env start lexState id site rule states =
      (ruleBlock start (fragmentOf env site rule states.size)
        ⟨id, rule.ordinal, rule.kind⟩).layOut lexState states := by
  rw [layRule, if_neg heof, if_neg hvisible]
  simp only [Block.layOut, ruleBlock, Block.cons, List.append_nil, List.foldl_append,
    List.foldl_cons, List.foldl_nil, Nat.add_zero]

/-- The rules of a lexical state, one after another, are laid out as their block. -/
theorem layRules_eq {state : LexState} {previous : Option Nat} {seen : Bool} {rules : List Rule}
    (hstart : start < states.size) :
    layRules env start lexState index i id rules states =
      (Block.ofRules start id states.size
        (resolveRules env state index i previous seen rules)).layOut lexState states := by
  induction rules generalizing i id previous seen states with
  | nil => simp [layRules, resolveRules, Block.ofRules, Block.layOut]
  | cons rule rest ih =>
    rw [layRules, resolveRules, Block.ofRules]
    -- Rules without a fragment lay nothing; any other lays its block before those of the later
    -- rules.
    by_cases hnone : rule.regex.isEof = true ∨ rule.regex.tag.hidden = true
    · have hsame : layRule env start lexState id ⟨index, i, []⟩ rule states = states := by
        rcases hnone with heof | hhidden
        · rw [layRule, if_pos heof]
        · exact layRule_of_hidden hhidden
      rw [pattern_resolveRule, if_pos hnone, hsame, ih hstart]
      rfl
    · obtain ⟨heof, hvisible⟩ := not_or.1 hnone
      have hf := recognizes_fragmentOf env ⟨index, i, []⟩ rule states.size
      have hsize : ∀ {f : Fragment} {acc : Accept},
          ((ruleBlock start f acc).layOut lexState states).size = states.size + f.size :=
        Block.size_layOut
      rw [pattern_resolveRule, if_neg hnone, layRule_of_visible heof hvisible,
        ih (by rw [hsize]; omega), hsize]
      simp only [ResolvedRule.accept, rule_resolveRule]
      refine Eq.symm ((congrArg (Block.layOut · lexState states) (cons_eq_append ..)).trans ?_)
      exact Block.layOut_append fun j => lt_of_names_ruleBlock hf.toFits hstart

/-- The block of a lexical state names its start state and states behind it. -/
theorem le_of_names_ofLexState {rs : List ResolvedRule} (h : WellFormed rs) {j : Nat}
    (hnames : (Block.ofLexState start id rs).Names j) : start ≤ j := by
  have hlays : (Block.ofRules start id (start + 1) rs).Lays start id (start + 1) rs :=
    Block.lays_ofRules (Nat.lt_succ_self start) h
  rcases hnames with ⟨e, he, rfl⟩ | ⟨e, he, rfl⟩ | ⟨x, hx, rfl⟩
  · have := (hlays.move e he).1
    omega
  · have := (hlays.jump e he).1
    omega
  · have := hlays.accept x hx
    omega

/-- The first state of the block is the start state, and the rest is that of the rules. -/
theorem layOut_ofLexState (rs : List ResolvedRule) :
    (Block.ofLexState states.size id rs).layOut lexState states =
      (Block.ofRules states.size id (states.size + 1) rs).layOut lexState
        (states.push { lexState }) := by
  rw [Block.ofLexState]
  generalize Block.ofRules states.size id (states.size + 1) rs = b
  have hblank : states ++ Array.replicate (b.size + 1) ({ lexState } : State) =
      states.push ({ lexState } : State) ++ Array.replicate b.size ({ lexState } : State) := by
    rw [← Array.append_singleton, Array.append_assoc, Nat.add_comm,
      ← Array.replicate_append_replicate, Array.replicate_one]
  simp only [Block.layOut, hblank]

/-- Rule by rule, the states are those that the builder lays out at once. -/
theorem states_addState (b : Builder) (index : Nat) (state : LexState) :
    (b.addState index state).1.automaton.states =
      layRules b.env b.automaton.states.size b.automaton.lexStates.size index 0
        b.automaton.rules.size state.rules
        (b.automaton.states.push { lexState := b.automaton.lexStates.size }) := by
  have hwellFormed : WellFormed (rulesOf b.env index state) :=
    fun r hr p hp => (sturdy_rulesOf r hr p hp).wellFormed
  have hstates : (b.addState index state).1.automaton.states =
      b.automaton.states ++ (Block.ofLexState b.automaton.states.size b.automaton.rules.size
        (rulesOf b.env index state)).states b.automaton.lexStates.size b.automaton.states.size :=
    rfl
  generalize b.automaton.states = states at hstates ⊢
  have hstart : states.size < (states.push { lexState := b.automaton.lexStates.size }).size := by
    simp
  rw [hstates, ← Block.layOut_eq_append fun j => le_of_names_ofLexState hwellFormed,
    layOut_ofLexState, layRules_eq hstart, Array.size_push]
  rfl

end Builder

end Lexwright

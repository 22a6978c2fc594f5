import Lexwright.Proofs.Automaton.Layout
import Lexwright.Proofs.Pattern.Sturdy

/-!
# `Lexwright.Proofs.Automaton.Tidy`: a state either moves or jumps

Every fragment leaves its own exit to the fragment that contains it, which puts jumps on it. What
is put on other states are jumps too, so the edges of a state with a move are never added to.

* `Fragment.Tidy`: no state of the fragment has both a move and a jump, and no move is for the
  empty set. `Pattern.tidy_fragment` proves it, with one lemma for each constructor.
* `Fragment.Leaves`: where the jumps of several fragments, and the jumps that are put on their
  exits, come from. `Consecutive.move_ne_of_leaves` says that no move does.
* `Block.Tidy`, `State.Tidy`: the same for the block of a lexical state, and for one state.
* `Builder.tidy_addStates`: every state that is laid out is tidy.
-/

set_option autoImplicit false

namespace Lexwright

namespace Fragment

/-- No state has both a move and a jump, and no move is for the empty set. -/
structure Tidy (f : Fragment) : Prop where
  nonempty : ∀ e ∈ f.moves, ¬e.set.isEmpty = true
  apart : ∀ e ∈ f.moves, ∀ j ∈ f.jumps, e.source ≠ j.source

/-- The state is the exit of one of the fragments, or one of them jumps from it. -/
def Leaves (fs : List Fragment) (s : Nat) : Prop :=
  ∃ f ∈ fs, (∃ j ∈ f.jumps, j.source = s) ∨ s = f.exit

variable {f : Fragment} {fs : List Fragment} {L : List Char → Prop} {Ls : List (List Char → Prop)}
  {base current s : Nat}

/-- The jumps of several fragments are those of the first, and those of the others. -/
theorem leaves_cons : Leaves (f :: fs) s ↔
    ((∃ j ∈ f.jumps, j.source = s) ∨ s = f.exit) ∨ Leaves fs s := by
  simp only [Leaves, List.mem_cons, exists_eq_or_imp]

/-- A jump of one of the fragments leaves its source. -/
theorem leaves_of_jump {j : Jump} (hf : f ∈ fs) (hj : j ∈ f.jumps) : Leaves fs j.source :=
  ⟨f, hf, Or.inl ⟨j, hj, rfl⟩⟩

/-- The jumps to what follows a fragment leave its exit. -/
theorem leaves_exit (hf : f ∈ fs) : Leaves fs f.exit := ⟨f, hf, Or.inr rfl⟩

/-- The jumps of a fragment, and those put on its exit, start in its block. -/
theorem Fits.within_of_leaves (h : f.Fits base)
    (hs : (∃ j ∈ f.jumps, j.source = s) ∨ s = f.exit) : f.Within base s := by
  rcases hs with ⟨j, hj, rfl⟩ | rfl
  · have := (h.jump j hj).1
    exact ⟨this.1, this.2.1⟩
  · exact h.exit

namespace Consecutive

/-- The same for consecutive fragments and their blocks. -/
theorem range_of_leaves (h : Consecutive base fs Ls) (hs : Leaves fs s) :
    base ≤ s ∧ s < base + sizeAll fs := by
  obtain ⟨f, hf, hs⟩ := hs
  obtain ⟨b, L, hb, -, hlow, hhigh⟩ := h.exists_base hf
  have := hb.within_of_leaves hs
  simp only [Within] at this
  omega

/-- No move starts where the fragments are left by jumps. -/
theorem move_ne_of_leaves (h : Consecutive base fs Ls) (htidy : ∀ f ∈ fs, f.Tidy) {e : Move}
    (he : e ∈ fs.flatMap moves) (hs : Leaves fs s) : e.source ≠ s := by
  induction h with
  | nil => exact absurd he List.not_mem_nil
  | @cons base f fs L Ls head tail ih =>
    obtain ⟨hfirst, hrest⟩ := List.forall_mem_cons.1 htidy
    rcases List.mem_append.1 he with he | he
    · have hinside := (head.move e he).1
      rcases leaves_cons.1 hs with (⟨j, hj, rfl⟩ | rfl) | hs
      · exact hfirst.apart e he j hj
      · exact hinside.2.2
      · -- What the later fragments leave lies behind the first one.
        have := tail.range_of_leaves hs
        simp only [Inside] at hinside
        omega
    · rcases leaves_cons.1 hs with hs | hs
      · have hwithin := head.within_of_leaves hs
        have := (tail.move he).1
        simp only [Within] at hwithin
        omega
      · exact ih hrest he hs

/-- Fragments in consecutive blocks, with jumps that leave them or come from elsewhere. -/
theorem tidy (h : Consecutive base fs Ls) (htidy : ∀ f ∈ fs, f.Tidy) {size entry exit : Nat}
    {jumps : List Jump} (hjumps : ∀ j ∈ jumps, Leaves fs j.source ∨
      ¬(base ≤ j.source ∧ j.source < base + sizeAll fs)) :
    Tidy ⟨size, entry, exit, fs.flatMap moves, jumps⟩ where
  nonempty e he := by
    obtain ⟨f, hf, he⟩ := List.mem_flatMap.1 he
    exact (htidy f hf).nonempty e he
  apart e he j hj := by
    rcases hjumps j hj with hs | hs
    · exact h.move_ne_of_leaves htidy he hs
    · intro heq
      exact hs (heq ▸ (h.move he).1)

end Consecutive

/-! ### One lemma for each constructor -/

/-- One move leaves no jump at its state. -/
theorem tidy_chars (set : Segments) (base : Nat) : (chars set base).Tidy where
  nonempty e he := by
    unfold chars at he
    split at he
    · exact absurd he List.not_mem_nil
    · rename_i hne
      rw [List.mem_singleton.1 he]
      exact hne
  apart _ _ _ hj := absurd hj List.not_mem_nil

/-- The states of a literal have moves and no jumps. -/
theorem tidy_literal {sets : List Segments} (h : ∀ set ∈ sets, ¬set.isEmpty = true) (base : Nat) :
    (literal sets base).Tidy where
  nonempty _ he := h _ (mem_literalMoves he).2.2.2
  apart _ _ _ hj := absurd hj List.not_mem_nil

/-- A choice of tidy fragments is tidy: its own states have jumps only. -/
theorem tidy_choice (h : Consecutive (base + 2) fs Ls) (htidy : ∀ f ∈ fs, f.Tidy) :
    (choice base fs).Tidy := by
  refine h.tidy htidy fun j hj => ?_
  obtain ⟨f, hf, hj⟩ := List.mem_flatMap.1 hj
  rcases List.mem_append.1 hj with hj | hj
  · exact Or.inl (leaves_of_jump hf hj)
  · simp only [List.mem_cons, List.not_mem_nil, or_false] at hj
    rcases hj with rfl | rfl
    · exact Or.inr (by simp only; omega)
    · exact Or.inl (leaves_exit hf)

/-- A chain jumps from the state that it starts from, and where its fragments are left. -/
theorem source_chain {j : Jump} (hj : j ∈ chain current fs) :
    j.source = current ∨ Leaves fs j.source := by
  induction fs generalizing current with
  | nil => exact absurd hj List.not_mem_nil
  | cons f fs ih =>
    rcases List.mem_append.1 hj with hj | hj
    · exact Or.inr (leaves_of_jump List.mem_cons_self hj)
    · rcases List.mem_cons.1 hj with rfl | hj
      · exact Or.inl rfl
      · rcases ih hj with heq | hs
        · exact Or.inr (heq ▸ leaves_exit List.mem_cons_self)
        · exact Or.inr (leaves_cons.2 (Or.inr hs))

/-- The jumps of the row start where a jump may start. -/
theorem source_optionalChain {exit : Nat} {j : Jump} (hj : j ∈ optionalChain current exit fs) :
    j.source = current ∨ Leaves fs j.source := by
  induction fs generalizing current with
  | nil =>
    rw [List.mem_singleton.1 hj]
    exact Or.inl rfl
  | cons f fs ih =>
    rcases mem_optionalChain_cons.1 hj with hj | rfl | rfl | hj
    · exact Or.inr (leaves_of_jump List.mem_cons_self hj)
    · exact Or.inl rfl
    · exact Or.inl rfl
    · rcases ih hj with heq | hs
      · exact Or.inr (heq ▸ leaves_exit List.mem_cons_self)
      · exact Or.inr (leaves_cons.2 (Or.inr hs))

/-- A chain ends where it starts from, or at the exit of a fragment. -/
theorem chainEnd_eq_or_leaves (current : Nat) (fs : List Fragment) :
    chainEnd current fs = current ∨ Leaves fs (chainEnd current fs) := by
  induction fs generalizing current with
  | nil => exact Or.inl rfl
  | cons f fs ih =>
    rw [chainEnd]
    rcases ih f.exit with heq | hs
    · exact Or.inr (heq.symm ▸ leaves_exit List.mem_cons_self)
    · exact Or.inr (leaves_cons.2 (Or.inr hs))

/-- A sequence of tidy fragments is tidy. -/
theorem tidy_seq (h : Consecutive base fs Ls) (htidy : ∀ f ∈ fs, f.Tidy) :
    (seq base fs).Tidy := by
  cases fs with
  | nil => exact ⟨fun _ he => absurd he List.not_mem_nil, fun _ he => absurd he List.not_mem_nil⟩
  | cons f fs =>
    refine h.tidy htidy fun j hj => Or.inl ?_
    rcases List.mem_append.1 hj with hj | hj
    · exact leaves_of_jump List.mem_cons_self hj
    · rcases source_chain hj with heq | hs
      · exact heq ▸ leaves_exit List.mem_cons_self
      · exact leaves_cons.2 (Or.inr hs)

/-- One fragment whose exit, and a state outside of its block, get jumps. -/
theorem tidy_around (h : f.Recognizes base L) (htidy : f.Tidy) {size entry exit : Nat}
    {joins : List Jump}
    (hjoins : ∀ j ∈ joins, j.source = f.exit ∨ j.source = base + f.size) :
    Tidy ⟨size, entry, exit, f.moves, f.jumps ++ joins⟩ where
  nonempty := htidy.nonempty
  apart e he j hj := by
    have hinside := (h.move e he).1
    rcases List.mem_append.1 hj with hj | hj
    · exact htidy.apart e he j hj
    · rcases hjoins j hj with heq | heq
      · rw [heq]
        exact hinside.2.2
      · simp only [Inside] at hinside
        omega

/-- Two rows of fragments: the second may be entered from the end of the first. -/
theorem tidy_rows {fs' : List Fragment} {Ls' : List (List Char → Prop)} {base' : Nat}
    (h : Consecutive base fs Ls) (h' : Consecutive base' fs' Ls')
    (hbase : base + sizeAll fs ≤ base') (htidy : ∀ f ∈ fs, f.Tidy) (htidy' : ∀ f ∈ fs', f.Tidy)
    {size entry exit : Nat} {jumps : List Jump}
    (hjumps : ∀ j ∈ jumps, j.source < base ∨ Leaves fs j.source ∨ Leaves fs' j.source) :
    Tidy ⟨size, entry, exit, fs.flatMap moves ++ fs'.flatMap moves, jumps⟩ where
  nonempty e he := by
    rcases List.mem_append.1 he with he | he
    · obtain ⟨f, hf, he⟩ := List.mem_flatMap.1 he
      exact (htidy f hf).nonempty e he
    · obtain ⟨f, hf, he⟩ := List.mem_flatMap.1 he
      exact (htidy' f hf).nonempty e he
  -- A jump leaves a state before the fragments or one of them, and the other list is in another
  -- range.
  apart e he j hj := by
    rcases List.mem_append.1 he with he | he
    · have hsource := (h.move he).1
      rcases hjumps j hj with hs | hs | hs
      · omega
      · exact h.move_ne_of_leaves htidy he hs
      · have := h'.range_of_leaves hs
        omega
    · have hsource := (h'.move he).1
      rcases hjumps j hj with hs | hs | hs
      · omega
      · have := h.range_of_leaves hs
        omega
      · exact h'.move_ne_of_leaves htidy' he hs

section Repeated

variable {build : Nat → Fragment}

/-- Copies of a tidy fragment are tidy. -/
theorem tidy_copies (htidy : ∀ b, (build b).Tidy) (n base : Nat) :
    ∀ f ∈ copies build n base, f.Tidy := by
  induction n generalizing base with
  | zero => exact fun f hf => absurd hf List.not_mem_nil
  | succ n ih => exact List.forall_mem_cons.2 ⟨htidy base, ih _⟩

/-- A repetition with two bounds is tidy. -/
theorem tidy_between (h : ∀ b, (build b).Recognizes b L) (htidy : ∀ b, (build b).Tidy)
    (least most base : Nat) : (between least most build base).Tidy := by
  refine tidy_rows (consecutive_copies h least (base + 1)) (consecutive_copies h (most - least) _)
    (Nat.le_succ _) (tidy_copies htidy _ _) (tidy_copies htidy _ _) fun j hj => ?_
  rcases List.mem_append.1 hj with hj | hj
  · rcases source_chain hj with heq | hs
    · exact Or.inl (by omega)
    · exact Or.inr (Or.inl hs)
  · rcases source_optionalChain hj with heq | hs
    · rw [heq]
      rcases chainEnd_eq_or_leaves base (copies build least (base + 1)) with heq | hs
      · exact Or.inl (by omega)
      · exact Or.inr (Or.inl hs)
    · exact Or.inr (Or.inr hs)

/-- A repetition with a lower bound is tidy. -/
theorem tidy_atLeast (h : ∀ b, (build b).Recognizes b L) (htidy : ∀ b, (build b).Tidy)
    (least base : Nat) : (atLeast least build base).Tidy := by
  have hneeded := consecutive_copies h least (base + 1)
  have hend := chainEnd_eq_or_leaves base (copies build least (base + 1))
  have hcopies := tidy_copies htidy least (base + 1)
  unfold atLeast
  simp only
  generalize copies build least (base + 1) = needed at *
  generalize hx : base + 1 + sizeAll needed = x at *
  -- The copy behind the exit is a row of its own.
  have hlast : Consecutive (x + 1) [build (x + 1)] [L] := .cons (h (x + 1)) (.nil _)
  rw [show (build (x + 1)).moves = [build (x + 1)].flatMap moves from
    (List.flatMap_singleton ..).symm]
  refine tidy_rows hneeded hlast (by omega) hcopies
    (fun f hf => List.mem_singleton.1 hf ▸ htidy _) fun j hj => ?_
  have hcurrent : chainEnd base needed < base + 1 ∨ Leaves needed (chainEnd base needed) :=
    hend.imp_left fun heq => by omega
  simp only [List.mem_append, List.mem_cons, List.not_mem_nil, or_false] at hj
  rcases hj with (hj | hj) | rfl | rfl | rfl | rfl
  · rcases source_chain hj with heq | hs
    · exact Or.inl (by omega)
    · exact Or.inr (Or.inl hs)
  · exact Or.inr (Or.inr (leaves_of_jump List.mem_cons_self hj))
  · exact hcurrent.imp_right Or.inl
  · exact hcurrent.imp_right Or.inl
  · exact Or.inr (Or.inr (leaves_exit List.mem_cons_self))
  · exact Or.inr (Or.inr (leaves_exit List.mem_cons_self))

/-- Every repetition of a tidy fragment is tidy. -/
theorem tidy_repeated (h : ∀ b, (build b).Recognizes b L) (htidy : ∀ b, (build b).Tidy)
    (count : Count) (base : Nat) : (repeated build base count).Tidy := by
  cases count with
  | oneOrMore => exact tidy_around (h base) (htidy base) (by simp)
  | zeroOrMore => exact tidy_around (h base) (htidy base) (by simp)
  | zeroOrOne => exact tidy_around (h base) (htidy base) (by simp)
  | range least most =>
    cases most with
    | none => exact tidy_atLeast h htidy least base
    | some most => exact tidy_between h htidy least most base

end Repeated

end Fragment

namespace Pattern

/-- The fragments of patterns are tidy if each of them is. -/
theorem tidy_fragments {ps : List Pattern} (h : ∀ p ∈ ps, ∀ base, (p.fragment base).Tidy)
    (base : Nat) : ∀ f ∈ Pattern.fragments ps base, f.Tidy := by
  induction ps generalizing base with
  | nil =>
    rw [Pattern.fragments]
    exact fun f hf => absurd hf List.not_mem_nil
  | cons p ps ih =>
    rw [Pattern.fragments]
    obtain ⟨hfirst, hrest⟩ := List.forall_mem_cons.1 h
    exact List.forall_mem_cons.2 ⟨hfirst base, ih hrest _⟩

/-- In the fragment of a pattern a state either moves or jumps. -/
theorem tidy_fragment {p : Pattern} (h : p.Sturdy) (base : Nat) : (p.fragment base).Tidy := by
  have hconsecutive : ∀ {ps : List Pattern}, (∀ p ∈ ps, p.Sturdy) → ∀ base,
      Fragment.Consecutive base (Pattern.fragments ps base) (ps.map Pattern.Matches) :=
    fun hps => consecutive_fragments fun p hp => recognizes_fragment (hps p hp).wellFormed
  induction h generalizing base with
  | chars h =>
    rw [Pattern.fragment]
    exact Fragment.tidy_chars _ base
  | literal _ hne =>
    rw [Pattern.fragment]
    exact Fragment.tidy_literal hne base
  | choice h ih =>
    rw [Pattern.fragment]
    exact Fragment.tidy_choice (hconsecutive h (base + 2)) (tidy_fragments ih (base + 2))
  | seq h ih =>
    rw [Pattern.fragment]
    exact Fragment.tidy_seq (hconsecutive h base) (tidy_fragments ih base)
  | repeated hcount h ih =>
    rw [Pattern.fragment]
    exact Fragment.tidy_repeated (recognizes_fragment h.wellFormed) ih _ base

end Pattern

/-! ### Blocks and states -/

namespace Block

/-- No state of the block has both a move and a jump, and no move is for the empty set. -/
structure Tidy (b : Block) : Prop where
  nonempty : ∀ e ∈ b.moves, ¬e.set.isEmpty = true
  apart : ∀ e ∈ b.moves, ∀ j ∈ b.jumps, e.source ≠ j.source

variable {start id base : Nat} {rs : List ResolvedRule}

/-- One more tidy fragment keeps a block tidy. Its start state has jumps only, and its exit accepts
and has neither moves nor jumps. -/
theorem tidy_cons {f : Fragment} {L : List Char → Prop} {acc : Accept} {later : Block}
    (hf : f.Recognizes base L) (htidy : f.Tidy) (hstart : start < base)
    (hlays : later.Lays start (id + 1) (base + f.size) rs) (h : later.Tidy) :
    (cons start f acc later).Tidy where
  nonempty e he := by
    rcases List.mem_append.1 he with he | he
    · exact htidy.nonempty e he
    · exact h.nonempty e he
  apart e he j hj := by
    -- The edges of the fragment start in its block, the other ones behind it or at the start state.
    rcases List.mem_append.1 he with he | he
    · have hsource := (hf.move e he).1
      simp only [Fragment.Inside] at hsource
      rcases mem_jumps_cons.1 hj with hj | rfl | hj
      · exact htidy.apart e he j hj
      · simp only
        omega
      · have := (hlays.jump j hj).1
        omega
    · have hsource := (hlays.move e he).1
      rcases mem_jumps_cons.1 hj with hj | rfl | hj
      · have := (hf.jump j hj).1
        simp only [Fragment.Inside] at this
        omega
      · simp only
        omega
      · exact h.apart e he j hj

/-- The block of rules with sturdy patterns is tidy. -/
theorem tidy_ofRules (hstart : start < base)
    (hrs : ∀ r ∈ rs, ∀ p, r.pattern = some p → p.Sturdy) : (ofRules start id base rs).Tidy := by
  induction rs generalizing id base with
  | nil => exact ⟨fun _ he => absurd he List.not_mem_nil, fun _ he => absurd he List.not_mem_nil⟩
  | cons r rs ih =>
    obtain ⟨hfirst, hrest⟩ := List.forall_mem_cons.1 hrs
    unfold ofRules
    split
    · have htail : (ofRules start (id + 1) base rs).Tidy := ih hstart hrest
      exact ⟨htail.nonempty, htail.apart⟩
    · rename_i p hsome
      have hp := hfirst p hsome
      exact tidy_cons (Pattern.recognizes_fragment hp.wellFormed base)
        (Pattern.tidy_fragment hp base) hstart
        (lays_ofRules (by omega) fun r hr p hp => (hrest r hr p hp).wellFormed)
        (ih (by omega) hrest)

end Block

/-- A state with a move has no jump, and its move is not for the empty set. -/
structure State.Tidy (s : State) : Prop where
  nonempty : ∀ set q, s.move = some (set, q) → ¬set.isEmpty = true
  apart : s.move.isSome = true → s.jumps = #[]

/-- The states of a tidy block are tidy. -/
theorem Block.IsState.tidy {b : Block} {lexState p : Nat} {s : State}
    (h : b.IsState lexState p s) (hb : b.Tidy) : s.Tidy where
  nonempty set q hmove := hb.nonempty _ ((h.move set q).1 hmove)
  apart hsome := by
    obtain ⟨⟨set, q⟩, hmove⟩ := Option.isSome_iff_exists.1 hsome
    refine Array.eq_empty_iff_forall_not_mem.2 fun r hr => ?_
    exact hb.apart _ ((h.move set q).1 hmove) _ ((h.jump r).1 hr) rfl

namespace Builder

/-- Every pattern of the rules is sturdy. -/
theorem sturdy_rulesOf {env : Environment} {index : Nat} {state : LexState} :
    ∀ r ∈ rulesOf env index state, ∀ p, r.pattern = some p → p.Sturdy := by
  intro r hr p hp
  obtain ⟨j, hj⟩ := List.getElem?_of_mem hr
  obtain ⟨rule, site, previous, seen, -, rfl⟩ := exists_getElem?_resolveRules hj
  rw [pattern_resolveRule] at hp
  split at hp
  · cases hp
  · cases hp
    exact Regex.sturdy_resolve _ [] site rule.regex

/-- One more lexical state adds tidy states. -/
theorem tidy_addState {b : Builder} (h : ∀ s ∈ b.automaton.states, s.Tidy) (index : Nat)
    (state : LexState) : ∀ s ∈ (b.addState index state).1.automaton.states, s.Tidy := by
  intro s hs
  rcases Array.mem_append.1 hs with hs | hs
  · exact h s hs
  · obtain ⟨j, hj⟩ := Array.mem_iff_getElem?.1 hs
    have hstart := Nat.lt_succ_self b.automaton.states.size
    have hstate := Automaton.isState_ofLexState (Block.lays_ofRules hstart
      fun r hr p hp => (sturdy_rulesOf r hr p hp).wellFormed) hj
    exact hstate.tidy (Block.tidy_ofRules hstart sturdy_rulesOf)

/-- Every state that is laid out is tidy. -/
theorem tidy_addStates {b : Builder} (h : ∀ s ∈ b.automaton.states, s.Tidy)
    (states : List (LexState × Nat)) : ∀ s ∈ (b.addStates states).automaton.states, s.Tidy := by
  induction states generalizing b with
  | nil => exact h
  | cons state states ih => exact ih (tidy_addState h state.2 state.1)

end Builder

end Lexwright

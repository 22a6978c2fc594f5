import Lexwright.Automaton.Builder
import Lexwright.Proofs.Automaton.Thompson

/-!
# `Lexwright.Proofs.Automaton.Block`: the states of one lexical state

A block is written as lists of moves, jumps and accepted rules, and turned into an array of states
afterwards.

* `Block.Holds`: a block holds a fragment, and no other edge leaves the states of the fragment.
* `Block.Lays`: what a block holds for the rules of a lexical state. `lays_ofRules` proves it.
* `Block.IsState`: a state has exactly the edges and the rule that the lists give it.
  `isState_states` proves it for every state of the array.
-/

set_option autoImplicit false

namespace Lexwright

namespace Block

/-! ### The lists of a block -/

/-- The block holds a fragment whose states start at `base`: its edges, a jump to its entry and
the rule of its exit. Nothing else is said of the states of the fragment. -/
structure Holds (b : Block) (start : Nat) (f : Fragment) (base : Nat) (acc : Accept) : Prop where
  moves : ∀ e ∈ f.moves, e ∈ b.moves
  jumps : ∀ e ∈ f.jumps, e ∈ b.jumps
  entry : ⟨start, f.entry⟩ ∈ b.jumps
  accept : (f.exit, acc) ∈ b.accepts
  moveOf : ∀ e ∈ b.moves, f.Within base e.source → e ∈ f.moves
  jumpOf : ∀ e ∈ b.jumps, f.Within base e.source → e ∈ f.jumps
  acceptOf : ∀ x ∈ b.accepts, f.Within base x.1 → x = (f.exit, acc)

/-- What a block holds for rules that are numbered from `id` on. Its states start at `base`, behind
the start state. -/
structure Lays (b : Block) (start id base : Nat) (rs : List ResolvedRule) : Prop where
  length : b.fragments.length = rs.length
  move : ∀ e ∈ b.moves, (base ≤ e.source ∧ e.source < base + b.size) ∧
    (base ≤ e.target ∧ e.target < base + b.size) ∧ e.set.Regular
  nodup : (b.moves.map Move.source).Nodup
  jump : ∀ e ∈ b.jumps, (e.source = start ∨ base ≤ e.source ∧ e.source < base + b.size) ∧
    (base ≤ e.target ∧ e.target < base + b.size)
  accept : ∀ x ∈ b.accepts, base ≤ x.1 ∧ x.1 < base + b.size
  acceptNodup : (b.accepts.map Prod.fst).Nodup
  unpatterned : ∀ (j : Nat) (r : ResolvedRule), rs[j]? = some r → r.pattern = none →
    b.fragments[j]? = some none
  patterned : ∀ (j : Nat) (r : ResolvedRule) (p : Pattern), rs[j]? = some r →
    r.pattern = some p → ∃ f fbase, f.Recognizes fbase p.Matches ∧
      base ≤ fbase ∧ fbase + f.size ≤ base + b.size ∧
      b.fragments[j]? = some (some (f.entry, f.exit)) ∧
      b.Holds start f fbase (r.accept (id + j))
  entryOf : ∀ q, ⟨start, q⟩ ∈ b.jumps → ∃ (j x : Nat), b.fragments[j]? = some (some (q, x))
  acceptOf : ∀ x ∈ b.accepts, ∃ (j : Nat) (r : ResolvedRule) (entry : Nat), rs[j]? = some r ∧
    b.fragments[j]? = some (some (entry, x.1)) ∧ x.2 = r.accept (id + j)

/-- No rules are laid out by the empty block. -/
theorem lays_nil (start id base : Nat) : (ofRules start id base []).Lays start id base [] where
  length := rfl
  move _ he := absurd he List.not_mem_nil
  nodup := .nil
  jump _ he := absurd he List.not_mem_nil
  accept _ hx := absurd hx List.not_mem_nil
  acceptNodup := .nil
  unpatterned _ _ hr := nomatch hr
  patterned _ _ _ hr := nomatch hr
  entryOf _ hq := absurd hq List.not_mem_nil
  acceptOf _ hx := absurd hx List.not_mem_nil

variable {start id base : Nat} {r : ResolvedRule} {rs : List ResolvedRule} {later : Block}

/-- A rule without a fragment adds nothing but its place among the fragments. -/
theorem Lays.cons_none (h : later.Lays start (id + 1) base rs) (hr : r.pattern = none) :
    Lays { later with fragments := none :: later.fragments } start id base (r :: rs) where
  length := congrArg (· + 1) h.length
  move := h.move
  nodup := h.nodup
  jump := h.jump
  accept := h.accept
  acceptNodup := h.acceptNodup
  unpatterned j r' hj hpattern := by
    cases j with
    | zero => rfl
    | succ j => exact h.unpatterned j r' hj hpattern
  patterned j r' p hj hpattern := by
    cases j with
    | zero =>
      -- The first rule has no pattern.
      cases hj
      rw [hr] at hpattern
      cases hpattern
    | succ j =>
      obtain ⟨f, fbase, hf, hlow, hhigh, hfragment, hholds⟩ := h.patterned j r' p hj hpattern
      rw [show id + 1 + j = id + (j + 1) by omega] at hholds
      exact ⟨f, fbase, hf, hlow, hhigh, hfragment,
        { moves := hholds.moves, jumps := hholds.jumps, entry := hholds.entry
          accept := hholds.accept, moveOf := hholds.moveOf, jumpOf := hholds.jumpOf
          acceptOf := hholds.acceptOf }⟩
  entryOf q hq := by
    obtain ⟨j, x, hj⟩ := h.entryOf q hq
    exact ⟨j + 1, x, hj⟩
  acceptOf x hx := by
    obtain ⟨j, r', entry, hj, hfragment, hacc⟩ := h.acceptOf x hx
    rw [show id + 1 + j = id + (j + 1) by omega] at hacc
    exact ⟨j + 1, r', entry, hj, hfragment, hacc⟩

/-- The block of a fragment and of what follows it. -/
def cons (start : Nat) (f : Fragment) (acc : Accept) (later : Block) : Block where
  size := f.size + later.size
  moves := f.moves ++ later.moves
  jumps := f.jumps ++ ⟨start, f.entry⟩ :: later.jumps
  accepts := (f.exit, acc) :: later.accepts
  fragments := some (f.entry, f.exit) :: later.fragments

section Cons

variable {f : Fragment} {L : List Char → Prop} {acc : Accept}

/-- One more rule adds the jumps of its fragment and the jump to its entry. -/
theorem mem_jumps_cons {e : Jump} :
    e ∈ (cons start f acc later).jumps ↔ e ∈ f.jumps ∨ e = ⟨start, f.entry⟩ ∨ e ∈ later.jumps := by
  simp only [cons, List.mem_append, List.mem_cons]

/-- The first rule has the first fragment of the block. The other fragments lie behind it. -/
theorem holds_head (hstart : start < base)
    (h : later.Lays start (id + 1) (base + f.size) rs) :
    (cons start f acc later).Holds start f base acc where
  moves e he := List.mem_append_left _ he
  jumps e he := List.mem_append_left _ he
  entry := mem_jumps_cons.2 (Or.inr (Or.inl rfl))
  accept := List.mem_cons_self
  -- The states of the later rules lie above those of the fragment.
  moveOf e he hs := by
    rcases List.mem_append.1 he with he | he
    · exact he
    · have := (h.move e he).1
      simp only [Fragment.Within] at hs
      omega
  jumpOf e he hs := by
    simp only [Fragment.Within] at hs
    rcases mem_jumps_cons.1 he with he | rfl | he
    · exact he
    · simp only at hs
      omega
    · have := (h.jump e he).1
      omega
  acceptOf x hx hs := by
    rcases List.mem_cons.1 hx with rfl | hx
    · rfl
    · have := h.accept x hx
      simp only [Fragment.Within] at hs
      omega

/-- One more rule in front leaves the fragments of the others as they are. -/
theorem Holds.tail (hf : f.Recognizes base L) (hstart : start < base) {f' : Fragment}
    {base' : Nat} {acc' : Accept} (hbase : base + f.size ≤ base')
    (h : later.Holds start f' base' acc') :
    (cons start f acc later).Holds start f' base' acc' where
  moves e he := List.mem_append_right _ (h.moves e he)
  jumps e he := mem_jumps_cons.2 (Or.inr (Or.inr (h.jumps e he)))
  entry := mem_jumps_cons.2 (Or.inr (Or.inr h.entry))
  accept := List.mem_cons_of_mem _ h.accept
  -- The states of the first fragment lie below those of the later one.
  moveOf e he hs := by
    rcases List.mem_append.1 he with he | he
    · have := (hf.move e he).1
      simp only [Fragment.Inside, Fragment.Within] at this hs
      omega
    · exact h.moveOf e he hs
  jumpOf e he hs := by
    rcases mem_jumps_cons.1 he with he | rfl | he
    · have := (hf.jump e he).1
      simp only [Fragment.Inside, Fragment.Within] at this hs
      omega
    · simp only [Fragment.Within] at hs
      omega
    · exact h.jumpOf e he hs
  acceptOf x hx hs := by
    rcases List.mem_cons.1 hx with rfl | hx
    · have := hf.exit
      simp only [Fragment.Within] at this hs
      omega
    · exact h.acceptOf x hx hs

/-- A rule with a fragment puts it in front of what follows. -/
theorem Lays.cons_some {p : Pattern} (hf : f.Recognizes base p.Matches) (hstart : start < base)
    (h : later.Lays start (id + 1) (base + f.size) rs) (hr : r.pattern = some p) :
    (cons start f (r.accept id) later).Lays start id base (r :: rs) where
  length := congrArg (· + 1) h.length
  move e he := by
    -- A move is one of the first fragment, or one of the later rules.
    rcases List.mem_append.1 he with he | he
    · obtain ⟨hsource, htarget⟩ := hf.move e he
      simp only [Fragment.Inside, Fragment.Within] at hsource htarget
      simp only [cons]
      exact ⟨by omega, by omega, hf.sets e he⟩
    · obtain ⟨hsource, htarget, hset⟩ := h.move e he
      simp only [cons]
      exact ⟨by omega, by omega, hset⟩
  nodup := by
    show (List.map _ (_ ++ _)).Nodup
    rw [List.map_append]
    refine List.nodup_append.2 ⟨hf.nodup, h.nodup, fun p hp q hq => ?_⟩
    -- The states of the fragment lie below those of the later rules.
    obtain ⟨e, he, rfl⟩ := List.mem_map.1 hp
    obtain ⟨e', he', rfl⟩ := List.mem_map.1 hq
    have := (hf.move e he).1
    have := (h.move e' he').1
    simp only [Fragment.Inside] at *
    omega
  jump e he := by
    have hentry := hf.entry
    simp only [Fragment.Within] at hentry
    simp only [cons]
    rcases mem_jumps_cons.1 he with he | rfl | he
    · have := hf.jump e he
      simp only [Fragment.Inside, Fragment.Within] at this
      omega
    · -- The new jump leads from the start to the entry.
      exact ⟨Or.inl rfl, hentry.1, show f.entry < _ by omega⟩
    · have := h.jump e he
      omega
  accept x hx := by
    have hexit := hf.exit
    simp only [Fragment.Within] at hexit
    simp only [cons]
    rcases List.mem_cons.1 hx with rfl | hx
    · exact ⟨hexit.1, show f.exit < _ by omega⟩
    · have := h.accept x hx
      omega
  acceptNodup := by
    -- The exit of the fragment accepts for no later rule.
    refine List.nodup_cons.2 ⟨fun hmem => ?_, h.acceptNodup⟩
    obtain ⟨x, hx, heq⟩ := List.mem_map.1 hmem
    have := h.accept x hx
    have := hf.exit
    simp only [Fragment.Within] at this heq
    omega
  unpatterned j r' hj hpattern := by
    cases j with
    | zero =>
      cases hj
      rw [hr] at hpattern
      cases hpattern
    | succ j => exact h.unpatterned j r' hj hpattern
  patterned j r' p' hj hpattern := by
    cases j with
    | zero =>
      cases hj
      rw [hr] at hpattern
      cases hpattern
      exact ⟨f, base, hf, Nat.le_refl _, by simp only [cons]; omega, rfl, holds_head hstart h⟩
    | succ j =>
      obtain ⟨f', base', hf', hlow, hhigh, hfragment, hholds⟩ := h.patterned j r' p' hj hpattern
      rw [show id + 1 + j = id + (j + 1) by omega] at hholds
      exact ⟨f', base', hf', by omega, by simp only [cons]; omega, hfragment,
        hholds.tail hf hstart (by omega)⟩
  entryOf q hq := by
    rcases mem_jumps_cons.1 hq with hq | hq | hq
    · have := (hf.jump _ hq).1
      simp only [Fragment.Inside] at this
      omega
    · cases hq
      exact ⟨0, f.exit, rfl⟩
    · obtain ⟨j, x, hj⟩ := h.entryOf q hq
      exact ⟨j + 1, x, hj⟩
  acceptOf x hx := by
    rcases List.mem_cons.1 hx with rfl | hx
    · exact ⟨0, r, f.entry, rfl, rfl, rfl⟩
    · obtain ⟨j, r', entry, hj, hfragment, hacc⟩ := h.acceptOf x hx
      rw [show id + 1 + j = id + (j + 1) by omega] at hacc
      exact ⟨j + 1, r', entry, hj, hfragment, hacc⟩

end Cons

/-- There is an entry for each rule, also for one without a fragment. -/
theorem length_fragments_ofRules : (ofRules start id base rs).fragments.length = rs.length := by
  induction rs generalizing id base with
  | nil => rfl
  | cons r rs ih =>
    unfold ofRules
    cases r.pattern <;> exact congrArg (· + 1) ih

/-- The block of rules with well-formed patterns holds their fragments. -/
theorem lays_ofRules {start id base : Nat} {rs : List ResolvedRule} (hstart : start < base)
    (hrs : ∀ r ∈ rs, ∀ p, r.pattern = some p → p.WellFormed) :
    (ofRules start id base rs).Lays start id base rs := by
  induction rs generalizing id base with
  | nil => exact lays_nil start id base
  | cons r rs ih =>
    have hrest : ∀ r ∈ rs, ∀ p, r.pattern = some p → p.WellFormed :=
      fun r hr => hrs r (List.mem_cons_of_mem _ hr)
    unfold ofRules
    split
    · rename_i hnone
      exact (ih hstart hrest).cons_none hnone
    · rename_i p hsome
      have hf := Pattern.recognizes_fragment (hrs r List.mem_cons_self p hsome) base
      exact Lays.cons_some hf hstart (ih (by omega) hrest) hsome

/-! ### The array of states -/

/-- A state has exactly the move, the jumps and the rule that the lists of the block give it. -/
structure IsState (b : Block) (lexState p : Nat) (s : State) : Prop where
  lexState : s.lexState = lexState
  move : ∀ set q, s.move = some (set, q) ↔ ⟨p, set, q⟩ ∈ b.moves
  jump : ∀ q, q ∈ s.jumps ↔ ⟨p, q⟩ ∈ b.jumps
  accept : ∀ acc, s.accept = some acc ↔ (p, acc) ∈ b.accepts

/-- Changing entries one after another changes each entry by those meant for it. -/
theorem getElem?_foldl_modify {α β : Type} (xs : List α) (index : α → Nat) (change : α → β → β)
    (entries : Array β) (j : Nat) :
    (xs.foldl (fun s x => s.modify (index x) (change x)) entries)[j]? =
      entries[j]?.map fun s =>
        (xs.filter fun x => index x = j).foldl (fun s x => change x s) s := by
  induction xs generalizing entries with
  | nil => exact Option.map_id'.symm
  | cons x xs ih =>
    rw [List.foldl_cons, ih, Array.getElem?_modify]
    by_cases h : index x = j
    · rw [if_pos h, List.filter_cons_of_pos (by simpa using h), Option.map_map]
      rfl
    · rw [if_neg h, List.filter_cons_of_neg (by simpa using h)]

/-- Changing entries in place keeps their number. -/
theorem size_foldl_modify {α β : Type} (xs : List α) (index : α → Nat) (change : α → β → β)
    (entries : Array β) :
    (xs.foldl (fun s x => s.modify (index x) (change x)) entries).size = entries.size := by
  induction xs generalizing entries with
  | nil => rfl
  | cons x xs ih => rw [List.foldl_cons, ih, Array.size_modify]

/-- The array has one state for each number of the block. -/
theorem size_states (b : Block) (lexState start : Nat) :
    (b.states lexState start).size = b.size := by
  unfold states
  rw [size_foldl_modify, size_foldl_modify, size_foldl_modify, Array.size_replicate]

/-- Of entries with different keys at most one has a given key. -/
theorem getLast?_filter_iff {α : Type} {xs : List α} {key : α → Nat} (h : (xs.map key).Nodup)
    {k : Nat} {x : α} :
    (xs.filter fun y => key y = k).getLast? = some x ↔ x ∈ xs ∧ key x = k := by
  constructor
  · intro hlast
    obtain ⟨hx, hk⟩ := List.mem_filter.1 (List.mem_of_getLast? hlast)
    exact ⟨hx, of_decide_eq_true hk⟩
  · rintro ⟨hx, rfl⟩
    induction xs with
    | nil => exact absurd hx List.not_mem_nil
    | cons y ys ih =>
      obtain ⟨hnew, hrest⟩ := List.nodup_cons.1 h
      rcases List.mem_cons.1 hx with rfl | hx
      · -- No other entry has the key of this one.
        rw [List.filter_cons_of_pos (by simp), List.filter_eq_nil_iff.2 fun z hz => ?_]
        · rfl
        · intro heq
          exact hnew (List.mem_map.2 ⟨z, hz, of_decide_eq_true heq⟩)
      · have hne : ¬key y = key x := fun heq => hnew (List.mem_map.2 ⟨x, hx, heq.symm⟩)
        rw [List.filter_cons_of_neg (by simpa using hne)]
        exact ih hrest hx

/-- Of several moves the last one that is written stays. -/
theorem foldl_move (ms : List Move) (s : State) :
    ms.foldl (fun s m => { s with move := some (m.set, m.target) }) s =
      { s with move := (ms.getLast?.map fun m => (m.set, m.target)).or s.move } := by
  induction ms generalizing s with
  | nil => rfl
  | cons m ms ih =>
    rw [List.foldl_cons, ih, List.getLast?_cons]
    cases ms.getLast? with
    | none => rfl
    | some last => rfl

/-- Jumps are added behind those that the state has. -/
theorem foldl_jump (js : List Jump) (s : State) :
    js.foldl (fun s j => { s with jumps := s.jumps.push j.target }) s =
      { s with jumps := s.jumps ++ (js.map Jump.target).toArray } := by
  induction js generalizing s with
  | nil => simp
  | cons j js ih =>
    rw [List.foldl_cons, ih]
    simp

/-- The last accepted rule of a state wins. -/
theorem foldl_accept (xs : List (Nat × Accept)) (s : State) :
    xs.foldl (fun s x => { s with accept := some x.2 }) s =
      { s with accept := (xs.getLast?.map Prod.snd).or s.accept } := by
  induction xs generalizing s with
  | nil => rfl
  | cons x xs ih =>
    rw [List.foldl_cons, ih, List.getLast?_cons]
    cases xs.getLast? with
    | none => rfl
    | some last => rfl

/-- The keys of the lists, counted from the start state. -/
theorem filter_sub_eq {α : Type} {xs : List α} {key : α → Nat} {start j : Nat}
    (h : ∀ x ∈ xs, start ≤ key x) :
    (xs.filter fun x => key x - start = j) = xs.filter fun x => key x = start + j := by
  refine List.filter_congr fun x hx => decide_eq_decide.2 ?_
  have := h x hx
  omega

/-- Every state of the array has the edges and the rule that the lists give it. -/
theorem isState_states {b : Block} {lexState start j : Nat} {s : State}
    (hmoves : ∀ e ∈ b.moves, start ≤ e.source) (hjumps : ∀ e ∈ b.jumps, start ≤ e.source)
    (haccepts : ∀ x ∈ b.accepts, start ≤ x.1) (hmoveNodup : (b.moves.map Move.source).Nodup)
    (hacceptNodup : (b.accepts.map Prod.fst).Nodup)
    (hs : (b.states lexState start)[j]? = some s) : b.IsState lexState (start + j) s := by
  unfold states at hs
  simp only [getElem?_foldl_modify, Array.getElem?_replicate, filter_sub_eq hmoves,
    filter_sub_eq hjumps, filter_sub_eq haccepts] at hs
  split at hs
  · simp only [Option.map_some, Option.some.injEq, foldl_move, foldl_jump, foldl_accept] at hs
    subst hs
    -- What was written last to the state is the one entry that is meant for it.
    refine ⟨rfl, fun set q => ?_, fun q => ?_, fun acc => ?_⟩
    · simp only [Option.or_none, Option.map_eq_some_iff, getLast?_filter_iff hmoveNodup,
        Prod.mk.injEq]
      constructor
      · rintro ⟨e, ⟨he, hsource⟩, rfl, rfl⟩
        rw [← hsource]
        exact he
      · intro he
        exact ⟨_, ⟨he, rfl⟩, rfl, rfl⟩
    · simp only [Array.mem_append, List.mem_toArray, List.mem_map, List.mem_filter,
        decide_eq_true_eq]
      constructor
      · rintro (h | ⟨e, ⟨he, hsource⟩, rfl⟩)
        · exact absurd h List.not_mem_nil
        · rw [← hsource]
          exact he
      · intro he
        exact Or.inr ⟨_, ⟨he, rfl⟩, rfl⟩
    · simp only [Option.or_none, Option.map_eq_some_iff, getLast?_filter_iff hacceptNodup]
      constructor
      · rintro ⟨x, ⟨hx, hkey⟩, rfl⟩
        rw [← hkey]
        exact hx
      · intro hx
        exact ⟨_, ⟨hx, rfl⟩, rfl⟩
  · cases hs

end Block

end Lexwright

import Lexwright.Compile
import Lexwright.Proofs.Automaton.Rows
import Lexwright.Proofs.CharClass.Membership
import Lexwright.Proofs.Slices

/-!
# `Lexwright.Proofs.Compile`: the tables of a lexicon behave like its automaton

* `ClassPool.Knows`: a set has a class, whose test holds of what the set covers, whatever classes
  are added afterwards.
* `Tables.Serves`: what a lexer relies on. Rows are closures, and the move of a state leads to the
  row of its target on the characters of its set.
* `Compilation.serves_ofRows`, `serves_of_compile`: the tables of a lexicon that compiles serve
  its automaton.
* `exists_compile`: a lexicon compiles when neither its log nor that of its automaton has errors.
-/

set_option autoImplicit false

namespace Lexwright

open Text

variable {a : Automaton} {lexicon : Lexicon} {options : Options} {i p q r : Nat} {c : Char}
  {set : Segments}

/-! ### Classes -/

namespace ClassPool

variable {pool : ClassPool}

/-- The set number `j` has a class, and the test of the class holds of what the set covers,
whatever classes are added afterwards. -/
def Knows (pool : ClassPool) (j : Nat) (set : Segments) : Prop :=
  ∃ id test, pool.ids[j]? = some id ∧ pool.compiler.classes.get? id = some test ∧
    ∀ {k : ClassCompiler}, pool.compiler.Extends k → ∀ c : Char,
      test.contains k.tables c = true ↔ set.Covers c.toNat

/-- A pool that knows the class of a move knows it while more classes are added. -/
theorem Knows.add {j : Nat} {set' : Segments} (h : pool.Knows j set) :
    (pool.add set').Knows j set := by
  obtain ⟨id, test, hid, htest, hcontains⟩ := h
  have hext := ClassCompiler.extends_internClass pool.compiler set'
  refine ⟨id, test, ?_, hext.classes _ _ htest, fun {k} hk c => hcontains (hext.trans hk) c⟩
  show (pool.ids.push _)[j]? = some id
  rw [Array.getElem?_push_lt (Array.getElem?_eq_some_iff.1 hid).1,
    ← Array.getElem?_eq_getElem, hid]

/-- A pool knows the class that it was given last. -/
theorem knows_add (hset : ∀ seg ∈ set.toList, seg.last ≤ maxCode) :
    (pool.add set).Knows pool.ids.size set :=
  ⟨_, _, Array.getElem?_push_size, ClassCompiler.get?_internClass _ _,
    fun {_} hk c => ClassCompiler.contains_compile hset
      ((ClassCompiler.extends_internClass_of_compile _ _).trans hk) c⟩

/-- Every set that is added has its class, at its own number. -/
theorem knows_foldl (sets : List Segments)
    (hsets : ∀ set ∈ sets, ∀ seg ∈ set.toList, seg.last ≤ maxCode) :
    (∀ j set, pool.Knows j set → (sets.foldl add pool).Knows j set) ∧
      ∀ j set, sets[j]? = some set → (sets.foldl add pool).Knows (pool.ids.size + j) set := by
  -- A class that is added later extends the compiler, so the classes before it keep their tests.
  induction sets generalizing pool with
  | nil => exact ⟨fun j set h => h, fun j set h => nomatch h⟩
  | cons first rest ih =>
    obtain ⟨hold, hnew⟩ := @ih (pool.add first) fun set hset =>
      hsets set (List.mem_cons_of_mem _ hset)
    refine ⟨fun j set h => hold j set h.add, fun j set hj => ?_⟩
    cases j with
    | zero =>
      obtain rfl : first = set := Option.some.inj hj
      exact hold _ _ (knows_add (hsets first List.mem_cons_self))
    | succ j =>
      have hsize : (pool.add first).ids.size = pool.ids.size + 1 := Array.size_push _
      have := hnew j set hj
      rw [hsize, Nat.add_assoc, Nat.add_comm 1 j] at this
      exact this

end ClassPool

/-! ### The sets of the moves -/

namespace Compilation

variable {rows : Rows}

/-- Adds the set of a move that leads to a row. -/
def addMoveSet (sets : Interner Segments) (s : State × Option Nat) : Interner Segments :=
  match s.1.move, s.2 with
  | some (set, _), some _ => (sets.intern set).1
  | _, _ => sets

/-- Adding the set of a move keeps the numbers of the others. -/
theorem extends_addMoveSet (sets : Interner Segments) (s : State × Option Nat) :
    sets.Extends (addMoveSet sets s) := by
  unfold addMoveSet
  split
  · exact Interner.extends_intern _ _
  · exact .refl sets

/-- The sets that are met are those of the moves that lead to a row. -/
theorem foldl_addMoveSet (sets : Interner Segments) (states : List (State × Option Nat)) :
    sets.Extends (states.foldl addMoveSet sets) ∧
      (∀ s ∈ states, ∀ set target next, s.1.move = some (set, target) → s.2 = some next →
        ∃ j, (states.foldl addMoveSet sets).get? j = some set) ∧
      ∀ j set, (states.foldl addMoveSet sets).get? j = some set →
        sets.get? j = some set ∨ ∃ s ∈ states, ∃ target, s.1.move = some (set, target) := by
  -- By induction on the states: what is stored stays stored, and nothing else is added.
  induction states generalizing sets with
  | nil =>
    exact ⟨.refl sets, fun s hs => absurd hs List.not_mem_nil, fun j set hj => Or.inl hj⟩
  | cons first rest ih =>
    obtain ⟨hext, hmet, honly⟩ := ih (addMoveSet sets first)
    have hfirst := extends_addMoveSet sets first
    refine ⟨hfirst.trans hext, fun s hs set target next hmove hnext => ?_, fun j set hj => ?_⟩
    · rcases List.mem_cons.1 hs with rfl | hs
      · have hadded : addMoveSet sets s = (sets.intern set).1 := by
          unfold addMoveSet
          rw [hmove, hnext]
        exact ⟨(sets.intern set).2.1, hext _ _ (by rw [hadded]; exact Interner.get?_intern ..)⟩
      · exact hmet s hs set target next hmove hnext
    · rcases honly j set hj with hj | ⟨s, hs, target, hmove⟩
      · unfold addMoveSet at hj
        split at hj
        · rename_i set' target _ hmove _
          rcases Interner.eq_or_get?_of_intern hj with rfl | hj
          · exact Or.inr ⟨first, List.mem_cons_self, target, hmove⟩
          · exact Or.inl hj
        · exact Or.inl hj
      · exact Or.inr ⟨s, List.mem_cons_of_mem _ hs, target, hmove⟩

/-- The set of a move that leads to a row is met, and each set that is met is that of a move. -/
theorem exists_moveSets {state : State} {target next : Nat} (hstate : a.states[q]? = some state)
    (hmove : state.move = some (set, target)) (hnext : rows.nextRows[q]? = some (some next)) :
    ∃ j, (moveSets a rows).get? j = some set := by
  refine (foldl_addMoveSet .empty (List.zip a.states.toList rows.nextRows.toList)).2.1
    (state, some next) ?_ set target next hmove rfl
  refine List.mem_of_getElem? (i := q) ?_
  rw [List.getElem?_zip_eq_some, Array.getElem?_toList, Array.getElem?_toList]
  exact ⟨hstate, hnext⟩

/-- Every set that is stored is that of a move. -/
theorem exists_move_of_moveSets {j : Nat} (h : (moveSets a rows).get? j = some set) :
    ∃ q target, a.move? q = some (set, target) := by
  rcases (foldl_addMoveSet .empty (List.zip a.states.toList rows.nextRows.toList)).2.2 j set h
    with h | ⟨⟨state, next⟩, hs, target, hmove⟩
  · cases h
  · obtain ⟨q, hq⟩ := List.getElem?_of_mem (List.of_mem_zip hs).1
    rw [Array.getElem?_toList] at hq
    refine ⟨q, target, ?_⟩
    unfold Automaton.move?
    rw [hq]
    exact hmove

end Compilation

/-! ### The tables of an automaton -/

namespace Tables

/-- The row holds the set, and its rule is the one that the engine finds for the set. -/
def IsRow (t : Tables) (a : Automaton) (r : Nat) (set : StateSet) : Prop :=
  (t.row r).toList = set.toList ∧
    ∃ acc, (Engine.ofAutomaton a).acceptOf set = .ok acc ∧ t.rowRule r = acc.map Accept.rule

/-- What a lexer relies on when its tables are those of an automaton. -/
structure Serves (t : Tables) (a : Automaton) : Prop where
  terminals : t.terminals = a.rules.map fun r => ⟨r.kind, r.category, r.nextState⟩
  lexStates : t.lexStates.size = a.lexStates.size
  /-- A lexical state starts with the closure of its start state, unless this has no move. -/
  entry : ∀ {i : Nat} {info : LexStateInfo}, a.lexStates[i]? = some info →
    ∃ entry, t.lexStates[i]? = some entry ∧ entry.eofRule = info.eofRule ∧
      match entry.startRow with
      | some r => t.IsRow a r (a.closure info.start)
      | none => ∀ q ∈ a.closure info.start, a.move? q = none
  /-- Members of rows are states. -/
  fits : ∀ {r q : Nat}, q ∈ t.row r → q < t.transitions.size
  /-- A member of a row leads to the row of the target of its move, on the characters of its
  set. -/
  target : ∀ {r q target : Nat} {c : Char}, q ∈ t.row r → a.graph.move q c target →
    ∃ next, t.target? q c = some next ∧ t.IsRow a next (a.closure target)
  /-- It leads nowhere else. -/
  move : ∀ {r q next : Nat} {c : Char}, q ∈ t.row r → t.target? q c = some next →
    ∃ target, a.graph.move q c target

end Tables

namespace Compilation

variable {rows : Rows} {log : Log}

/-- There are as many rows as the automaton has. -/
theorem size_rows_ofRows : (ofRows options log a rows).tables.rows.size = rows.rows.size := by
  show (Tables.rowBounds 0 _).toArray.size = _
  rw [List.size_toArray, length_rowBounds, List.length_map, List.length_map, Array.length_toList]

/-- There is a terminal for each rule. -/
theorem size_terminals_ofRows : (ofRows options log a rows).tables.terminals.size = a.rules.size :=
  Array.size_map

/-- Rows are laid out as they are. -/
theorem row_ofRows {set : StateSet} (hr : rows.rows[r]? = some set) :
    ((ofRows options log a rows).tables.row r).toList = set.toList := by
  have hmembers : (rows.rows.toList.map SortedSet.toList)[r]? = some set.toList := by
    rw [List.getElem?_map, Array.getElem?_toList, hr]
    rfl
  obtain ⟨first, hbound, hslice⟩ := exists_slice _ hmembers
  have hrow : (ofRows options log a rows).tables.rows[r]? =
      some (first, first + set.toList.length) := by
    show (Tables.rowBounds 0 _).toArray[r]? = _
    rw [List.getElem?_toArray]
    exact hbound
  unfold Tables.row
  rw [hrow]
  exact hslice

/-- The states of a row of the tables are those of a set. -/
theorem exists_of_mem_row (hq : q ∈ (ofRows options log a rows).tables.row r) :
    ∃ set, rows.rows[r]? = some set ∧ q ∈ set := by
  by_cases hr : r < rows.rows.size
  · have hset := Array.getElem?_eq_getElem hr
    refine ⟨_, hset, ?_⟩
    rw [← Array.mem_toList_iff, row_ofRows hset] at hq
    exact hq
  · -- A row that there is not has no members.
    unfold Tables.row at hq
    have hnone : (ofRows options log a rows).tables.rows[r]? = none := by
      rw [Array.getElem?_eq_none_iff, size_rows_ofRows]
      exact Nat.le_of_not_lt hr
    rw [hnone] at hq
    exact absurd hq (Array.not_mem_empty _)

/-- A row of the tables has the states of its set, and the lowest rule that they accept. -/
theorem isRow_ofRows (hrows : rows.Serves a) {set : StateSet} (hr : rows.rows[r]? = some set) :
    (ofRows options log a rows).tables.IsRow a r set := by
  obtain ⟨acc, hacc, haccept⟩ := hrows.accept hr
  refine ⟨row_ofRows hr, acc, hacc, ?_⟩
  show ((rows.accepts.map (·.map Accept.rule))[r]?).join = acc.map Accept.rule
  rw [Array.getElem?_map, haccept]
  rfl

/-- The class of a move exists, and tests membership in the set of the move. -/
theorem exists_class (h : a.Implements lexicon) {state : State} {target next : Nat}
    (hstate : a.states[q]? = some state) (hmove : state.move = some (set, target))
    (hnext : rows.nextRows[q]? = some (some next)) :
    ∃ id, (ofRows options log a rows).tables.transitions[q]? = some (some ⟨id, next⟩) ∧
      id < (ofRows options log a rows).tables.classes.size ∧
      ∀ c : Char, (ofRows options log a rows).tables.classContains id c = true ↔
        set.Covers c.toNat := by
  obtain ⟨j, hj⟩ := exists_moveSets hstate hmove hnext
  -- All sets that are compiled are sets of moves, so they are within the range of the pages.
  have hsets : ∀ set ∈ (moveSets a rows).items.toList, ∀ seg ∈ set.toList,
      seg.last ≤ maxCode := by
    intro set hset seg hseg
    obtain ⟨k, hk⟩ := List.getElem?_of_mem hset
    rw [Array.getElem?_toList] at hk
    obtain ⟨p, target, hmove⟩ := exists_move_of_moveSets hk
    exact (h.regular hmove).scalars.last_le hseg
  obtain ⟨id, test, hid, htest, hcontains⟩ :=
    (@ClassPool.knows_foldl {} _ hsets).2 j set (by
      rw [Array.getElem?_toList]
      exact hj)
  rw [Array.foldl_toList] at hid htest hcontains
  rw [show ({} : ClassPool).ids.size + j = j from Nat.zero_add j] at hid
  refine ⟨id, ?_, (Array.getElem?_eq_some_iff.1 htest).1, fun c => ?_⟩
  · show (transitions a rows (moveSets a rows) _)[q]? = _
    unfold transitions
    rw [Array.getElem?_zipWith, hstate, hnext]
    simp only [hmove]
    rw [Interner.id?_eq_some_iff.2 hj, Option.bind_some, hid]
    rfl
  · unfold Tables.classContains
    rw [show (ofRows options log a rows).tables.classes[id]? = some test from htest]
    exact hcontains (.refl _) c

/-- A state without a move leads nowhere. -/
theorem target?_eq_none (hmove : a.move? q = none) :
    (ofRows options log a rows).tables.target? q c = none := by
  have htransition : (ofRows options log a rows).tables.transitions[q]?.join = none := by
    show ((transitions a rows (moveSets a rows) _)[q]?).join = none
    unfold transitions
    rw [Array.getElem?_zipWith]
    unfold Automaton.move? at hmove
    cases hs : a.states[q]? with
    | none => rfl
    | some state =>
      rw [hs] at hmove
      cases rows.nextRows[q]? with
      | none => rfl
      | some next =>
        simp only [show state.move = none from hmove]
        rfl
  unfold Tables.target?
  rw [htransition]

/-- There is a move, or none, for every state of the automaton. -/
theorem size_transitions_ofRows (hrows : rows.Serves a) :
    (ofRows options log a rows).tables.transitions.size = a.states.size := by
  show (transitions a rows (moveSets a rows) _).size = _
  unfold transitions
  rw [Array.size_zipWith, hrows.nextSize, Nat.min_self]

/-- The tables of an automaton serve it. -/
theorem serves_ofRows (h : a.Implements lexicon) (hrows : rows.Serves a) :
    (ofRows options log a rows).tables.Serves a := by
  have hstate : ∀ {q : Nat} {set : Segments} {target : Nat}, a.move? q = some (set, target) →
      ∃ state, a.states[q]? = some state ∧ state.move = some (set, target) := by
    intro q set target hmove
    exact Option.bind_eq_some_iff.1 hmove
  refine {
    terminals := rfl
    lexStates := Array.size_mapIdx
    entry := fun {i info} hinfo => ?_
    fits := fun {r q} hq => ?_
    target := fun {r q target c} hq hmove => ?_
    move := fun {r q next c} hq htarget => ?_ }
  · refine ⟨⟨(rows.lexStates[i]?.join).map Prod.fst, info.eofRule⟩, ?_, rfl, ?_⟩
    · show (a.lexStates.mapIdx _)[i]? = _
      rw [Array.getElem?_mapIdx, hinfo]
      rfl
    · have hstart := hrows.start hinfo
      cases hbound : rows.lexStates[i]?.join with
      | none =>
        rw [hbound] at hstart
        exact hstart
      | some bound =>
        rw [hbound] at hstart
        exact isRow_ofRows hrows hstart
  · obtain ⟨set, hset, hmem⟩ := exists_of_mem_row hq
    rw [size_transitions_ofRows hrows]
    exact hrows.members hset hmem
  · -- A move of the automaton is a transition, with a class that encodes its set.
    obtain ⟨set, hset, hmem⟩ := exists_of_mem_row hq
    obtain ⟨move, hmove, hcovers⟩ := hmove
    obtain ⟨next, hnext, hrow⟩ := hrows.next hset hmem hmove
    obtain ⟨state, hs, hsmove⟩ := hstate hmove
    obtain ⟨id, htransition, -, hclass⟩ := exists_class h hs hsmove hnext
    refine ⟨next, ?_, isRow_ofRows hrows hrow⟩
    unfold Tables.target?
    rw [htransition]
    simp only [Option.join_some, if_pos ((hclass c).2 hcovers)]
  · -- A transition of the tables comes from a move, whose set its class encodes.
    obtain ⟨set, hset, hmem⟩ := exists_of_mem_row hq
    cases hmove : a.move? q with
    | none =>
      rw [target?_eq_none hmove] at htarget
      cases htarget
    | some m =>
      obtain ⟨move, target⟩ := m
      obtain ⟨next', hnext, hrow⟩ := hrows.next hset hmem hmove
      obtain ⟨state, hs, hsmove⟩ := hstate hmove
      obtain ⟨id, htransition, -, hclass⟩ := exists_class h hs hsmove hnext
      unfold Tables.target? at htarget
      rw [htransition] at htarget
      simp only [Option.join_some] at htarget
      split at htarget
      · rename_i hcontains
        exact ⟨target, move, hmove, (hclass c).1 hcontains⟩
      · cases htarget

/-! ### Lexicons that compile -/

/-- An empty match is a warning. -/
theorem error?_emptyMatches (e : Engine) : ∀ m ∈ e.emptyMatches, m.error? = none := by
  intro m hm
  unfold Engine.emptyMatches at hm
  obtain ⟨r, _, hr⟩ := List.mem_filterMap.1 hm
  split at hr
  · split at hr
    · cases hr
      exact Issue.error?_message.2 rfl
    · cases hr
  · cases hr

/-- The tables of an automaton come from its rows, whatever is logged beside them. -/
theorem exists_ofRows_of_checked (h : a.Implements lexicon) {k : Compilation}
    (hk : (ofAutomaton options a log).checked = .ok k) :
    ∃ rows later, Rows.ofEngine (Engine.ofAutomaton a) = .ok rows ∧ rows.Serves a ∧
      k = ofRows options later a rows := by
  obtain ⟨rows, hrows, hserves⟩ := Rows.serves_ofEngine h
  -- The tables are handed out only if the log has no errors at the end.
  have hof : (ofAutomaton options a log).log.hasNoErrors = true ∧
      ofAutomaton options a log = k := by
    unfold checked at hk
    split at hk
    · rename_i hlog
      cases hk
      exact ⟨hlog, rfl⟩
    · cases hk
  obtain ⟨hlog, rfl⟩ := hof
  unfold ofAutomaton at hlog ⊢
  split at hlog
  · rename_i hclean
    rw [if_pos hclean]
    simp only [hrows] at hlog ⊢
    split at hlog
    · rename_i hwarn
      rw [if_pos hwarn]
      split at hlog
      · -- A failure is an error of the log.
        rename_i later conflict hunmatched
        exact absurd (Log.hasNoErrors_push.1 hlog).2 (by simp [Message.error?])
      · rename_i later hunmatched
        exact ⟨rows, later, rfl, hserves, rfl⟩
    · rename_i hwarn
      rw [if_neg hwarn]
      exact ⟨rows, _, rfl, hserves, rfl⟩
  · rename_i hclean
    exact absurd hlog hclean

end Compilation

open Compilation

/-- Both stages go on when there are no errors before them. -/
theorem compile_eq (hlexicon : lexicon.log.hasNoErrors = true)
    (hautomaton : (Automaton.ofLexicon lexicon options).2.hasNoErrors = true) :
    compile lexicon options = (Compilation.ofAutomaton options
      (Automaton.ofLexicon lexicon options).1 (Automaton.ofLexicon lexicon options).2).checked := by
  unfold compile Automaton.ofLexicon?
  rw [if_pos hlexicon]
  simp only [if_pos hautomaton]
  show Compilation.ofAutomaton? options (Automaton.ofLexicon lexicon options).1
    (Automaton.ofLexicon lexicon options).2 = _
  unfold Compilation.ofAutomaton?
  rw [if_pos hautomaton]

/-- A lexicon that compiles has no errors, and neither has its automaton. -/
theorem hasNoErrors_of_compile {k : Compilation} (h : compile lexicon options = .ok k) :
    lexicon.log.hasNoErrors = true ∧
      (Automaton.ofLexicon lexicon options).2.hasNoErrors = true := by
  unfold compile Automaton.ofLexicon? at h
  split at h
  · rename_i hlexicon
    simp only at h
    split at h
    · rename_i hautomaton
      exact ⟨hlexicon, hautomaton⟩
    · cases h
  · cases h

/-- A lexicon that compiles is built cleanly. -/
theorem builtCleanly_of_compile {k : Compilation} (h : compile lexicon options = .ok k) :
    Automaton.BuiltCleanly lexicon options := by
  obtain ⟨hlexicon, hautomaton⟩ := hasNoErrors_of_compile h
  exact Automaton.builtCleanly_of_hasNoErrors hlexicon hautomaton

/-- A lexicon that compiles has an automaton that implements it, and its tables are laid out from
the rows of the automaton. -/
theorem exists_ofRows_of_compile {k : Compilation} (h : compile lexicon options = .ok k) :
    (Automaton.ofLexicon lexicon options).1.Implements lexicon ∧ ∃ rows later,
      Rows.ofEngine (Engine.ofAutomaton (Automaton.ofLexicon lexicon options).1) = .ok rows ∧
      rows.Serves (Automaton.ofLexicon lexicon options).1 ∧
      k = ofRows options later (Automaton.ofLexicon lexicon options).1 rows := by
  obtain ⟨hlexicon, hautomaton⟩ := hasNoErrors_of_compile h
  rw [compile_eq hlexicon hautomaton] at h
  have himplements := Automaton.implements_ofLexicon
    (Automaton.builtCleanly_of_hasNoErrors hlexicon hautomaton)
  exact ⟨himplements, exists_ofRows_of_checked himplements h⟩

/-- The options are kept. -/
theorem options_of_compile {k : Compilation} (h : compile lexicon options = .ok k) :
    k.options = options := by
  obtain ⟨-, rows, later, -, -, rfl⟩ := exists_ofRows_of_compile h
  rfl

/-- A lexicon that compiles has an automaton that implements it, and tables that serve the
automaton. -/
theorem serves_of_compile {k : Compilation} (h : compile lexicon options = .ok k) :
    (Automaton.ofLexicon lexicon options).1.Implements lexicon ∧
      k.tables.Serves (Automaton.ofLexicon lexicon options).1 := by
  obtain ⟨himplements, rows, later, -, hserves, rfl⟩ := exists_ofRows_of_compile h
  exact ⟨himplements, serves_ofRows himplements hserves⟩

/-- What the tables ask for after a match of a rule is what the rule asks for. -/
theorem exists_terminal {k : Compilation} (hk : compile lexicon options = .ok k) {id i : Nat}
    {rule : Rule} (hrule : lexicon.numbered[id]? = some (i, rule)) :
    k.tables.terminals[id]? = some ⟨rule.kind, rule.category, rule.nextState.bind fun name =>
      lexicon.states.findIdx? (·.name = name)⟩ := by
  obtain ⟨himplements, hserves⟩ := serves_of_compile hk
  obtain ⟨info, hinfo, -, -, hkind, hcategory, hnext, -⟩ := himplements.rule hrule
  rw [hserves.terminals, Array.getElem?_map, hinfo, Option.map_some, hkind, hcategory, hnext]

/-- A lexicon compiles when neither its log nor that of its automaton has errors. -/
theorem exists_compile (hlexicon : lexicon.log.hasNoErrors = true)
    (hautomaton : (Automaton.ofLexicon lexicon options).2.hasNoErrors = true)
    (hwarn : options.warnUnreachable = false) : ∃ k, compile lexicon options = .ok k := by
  obtain ⟨rows, hrows, -⟩ := Rows.serves_ofEngine (Automaton.implements_ofLexicon
    (Automaton.builtCleanly_of_hasNoErrors hlexicon hautomaton))
  refine ⟨ofRows options ((Automaton.ofLexicon lexicon options).2.pushAll
    (Engine.ofAutomaton (Automaton.ofLexicon lexicon options).1).emptyMatches)
    (Automaton.ofLexicon lexicon options).1 rows, ?_⟩
  rw [compile_eq hlexicon hautomaton]
  unfold Compilation.ofAutomaton
  rw [if_pos hautomaton]
  simp only [hrows, hwarn, Bool.false_eq_true, if_false]
  unfold checked
  rw [if_pos]
  exact Log.hasNoErrors_push.2
    ⟨Log.hasNoErrors_pushAll.2 ⟨hautomaton, error?_emptyMatches _⟩, rfl⟩

end Lexwright

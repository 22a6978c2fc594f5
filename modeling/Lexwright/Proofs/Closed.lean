import Lexwright.Proofs.Compile

/-!
# `Lexwright.Proofs.Closed`: tables refer to nothing that they do not have

The numbers in the tables come from several passes: rules and lexical states are counted, rows are
laid out one lexical state after another, and classes, page maps and pages are interned. A lexer
uses these numbers as they are.

* `ClassCompiler.Closed`: the same for the classes alone. `closed_internClass` keeps it.
* `Tables.Closed`: every number in the tables is that of an entry, and every slice lies in its
  array.
* `closed_of_compile`: the tables of a lexicon that compiles are closed.
-/

set_option autoImplicit false

namespace Lexwright

variable {a : Automaton} {lexicon : Lexicon} {options : Options} {log : Log} {i q r : Nat}

/-! ### Classes -/

namespace ClassCompiler

variable {k : ClassCompiler}

/-- Tests refer to page maps that there are, and page maps to pages that there are. -/
structure Closed (k : ClassCompiler) : Prop where
  pageMap : ∀ {i : Nat} {test : ClassTest}, k.classes.get? i = some test →
    ∀ map ∈ test.pageMap, map < k.pageMaps.size
  bits : ∀ {i : Nat} {entries : List PageEntry}, k.pageMaps.get? i = some entries →
    ∀ entry ∈ entries, entry.bits < k.pages.size

/-- A compiler without classes refers to nothing. -/
theorem closed_default : (default : ClassCompiler).Closed :=
  ⟨fun h => (nomatch h), fun h => (nomatch h)⟩

/-- A page map that is interned refers to pages that are interned with it. -/
theorem Closed.internPageMap (h : k.Closed) (runs : List (Nat × Page)) :
    (k.internPageMap runs).1.Closed ∧
      (k.internPageMap runs).2 < (k.internPageMap runs).1.pageMaps.size := by
  have hext := extends_internPageMap k runs
  obtain ⟨entries, hmap, hlength, hentries⟩ := exists_pageMap k runs
  refine ⟨⟨fun {i test} htest map hpage => ?_, fun {i entries'} hi entry hentry => ?_⟩,
    Interner.lt_size hmap⟩
  · exact hext.pageMaps.lt_size (h.pageMap (show k.classes.get? i = some test from htest) map hpage)
  · rcases Interner.eq_or_get?_of_intern hi with hnew | hold
    · -- The one page map that may be new is the one that was interned.
      have hsame : some entries' = some entries := by
        rw [hnew, ← hmap]
        exact (Interner.get?_intern ..).symm
      cases hsame
      obtain ⟨j, hj, rfl⟩ := List.getElem_of_mem hentry
      exact Interner.lt_size (hentries j hj (hlength ▸ hj)).2
    · exact hext.pages.lt_size (h.bits hold entry hentry)

/-- Compiling a set keeps the compiler closed, and the page map of its test is stored. -/
theorem Closed.compile (h : k.Closed) (s : Segments) :
    (k.compile s).1.Closed ∧
      ∀ map ∈ (k.compile s).2.pageMap, map < (k.compile s).1.pageMaps.size := by
  unfold ClassCompiler.compile
  split
  · exact ⟨h, fun map hmap => (nomatch hmap)⟩
  · obtain ⟨hclosed, hlt⟩ := h.internPageMap (pageBits s.toList)
    refine ⟨hclosed, fun map hmap => ?_⟩
    cases hmap
    exact hlt

/-- The test that is interned was compiled just before. -/
theorem Closed.internClass (h : k.Closed) (s : Segments) : (k.internClass s).1.Closed := by
  obtain ⟨hclosed, hlt⟩ := h.compile s
  refine ⟨fun {i test} hi map hmap => ?_, hclosed.bits⟩
  rcases Interner.eq_or_get?_of_intern hi with rfl | hold
  · exact hlt map hmap
  · exact hclosed.pageMap hold map hmap

end ClassCompiler

/-- Adding any classes keeps the pool closed. -/
theorem ClassPool.closed_foldl_add {pool : ClassPool} (h : pool.compiler.Closed)
    (sets : List Segments) : (sets.foldl add pool).compiler.Closed := by
  induction sets generalizing pool with
  | nil => exact h
  | cons set rest ih =>
    have hadd : (pool.add set).compiler.Closed := h.internClass set
    exact ih hadd

/-! ### Tables -/

/-- Every number in the class tables is that of an entry, and every slice lies in its array. -/
structure ClassTables.Closed (t : ClassTables) : Prop where
  slice : ∀ b ∈ t.pageMaps, b.1 ≤ b.2 ∧ b.2 ≤ t.pageEntries.size
  bits : ∀ entry ∈ t.pageEntries, entry.bits < t.pages.size

/-- Every number in the tables is that of an entry, and every slice lies in its array. -/
structure Tables.Closed (t : Tables) : Prop where
  /-- There is a lexical state to start with. -/
  nonempty : 0 < t.lexStates.size
  nextState : ∀ terminal ∈ t.terminals, ∀ i ∈ terminal.nextState, i < t.lexStates.size
  startRow : ∀ entry ∈ t.lexStates, ∀ r ∈ entry.startRow, r < t.rows.size
  eofRule : ∀ entry ∈ t.lexStates, ∀ id ∈ entry.eofRule, id < t.terminals.size
  slice : ∀ b ∈ t.rows, b.1 ≤ b.2 ∧ b.2 ≤ t.rowMembers.size
  member : ∀ q ∈ t.rowMembers, q < t.transitions.size
  /-- For every row it is known whether it accepts a rule. -/
  rowRule : ∀ r < t.rows.size, ∃ rule, t.rowRules[r]? = some rule ∧
    ∀ id ∈ rule, id < t.terminals.size
  transition : ∀ move : Transition, some move ∈ t.transitions →
    move.charClass < t.classes.size ∧ move.nextRow < t.rows.size
  pageMap : ∀ test ∈ t.classes, ∀ map ∈ test.pageMap, map < t.classTables.pageMaps.size
  classTables : t.classTables.Closed

/-- The tables of a closed compiler are closed. -/
theorem ClassCompiler.Closed.tables {k : ClassCompiler} (h : k.Closed) : k.tables.Closed := by
  constructor
  · intro b hb
    have hb : b ∈ bounds 0 k.pageMaps.items.toList := List.mem_toArray.1 hb
    rw [bounds_eq_rowBounds] at hb
    exact slice_le hb
  · intro entry hentry
    obtain ⟨entries, hentries, hmem⟩ := List.mem_flatten.1 (List.mem_toArray.1 hentry)
    obtain ⟨i, hi⟩ := List.getElem?_of_mem hentries
    rw [Array.getElem?_toList] at hi
    exact h.bits hi entry hmem

namespace Compilation

variable {rows : Rows}

/-- An entry in the tables is that of a lexical state of the automaton. -/
theorem exists_lexState_of_entry {entry : LexEntry}
    (hentry : entry ∈ (ofRows options log a rows).tables.lexStates) :
    ∃ (i : Nat) (info : LexStateInfo), a.lexStates[i]? = some info ∧
      entry = ⟨(rows.lexStates[i]?.join).map Prod.fst, info.eofRule⟩ := by
  obtain ⟨i, hi⟩ := Array.getElem?_of_mem hentry
  obtain ⟨info, hinfo, rfl⟩ := Option.map_eq_some_iff.1 (Array.getElem?_mapIdx.symm.trans hi)
  exact ⟨i, info, hinfo, rfl⟩

/-- A move in the tables is one of the automaton that leads to a row. -/
theorem exists_state_of_transition {move : Transition}
    (hmove : some move ∈ (ofRows options log a rows).tables.transitions) :
    ∃ (q : Nat) (state : State) (set : Segments) (target : Nat),
      a.states[q]? = some state ∧ state.move = some (set, target) ∧
      rows.nextRows[q]? = some (some move.nextRow) ∧
      (ofRows options log a rows).tables.transitions[q]? = some (some move) := by
  obtain ⟨q, hq⟩ := Array.getElem?_of_mem hmove
  have hzip := hq
  unfold ofRows transitions at hzip
  simp only [Array.getElem?_zipWith] at hzip
  cases hstate : a.states[q]? with
  | none => simp only [hstate, reduceCtorEq] at hzip
  | some state =>
    cases hnext : rows.nextRows[q]? with
    | none => simp only [hstate, hnext, reduceCtorEq] at hzip
    | some next =>
      cases hset : state.move with
      | none => simp only [hstate, hnext, hset, Option.some.injEq, reduceCtorEq] at hzip
      | some m =>
        cases next with
        | none => simp only [hstate, hnext, hset, Option.some.injEq, reduceCtorEq] at hzip
        | some row =>
          simp only [hstate, hnext, hset, Option.some.injEq] at hzip
          obtain ⟨set, target⟩ := m
          refine ⟨q, state, set, target, hstate, hset, ?_, hq⟩
          rw [hnext, ← hzip]

/-- The rule of a row is one of the lexicon. -/
theorem exists_rowRule (h : a.Implements lexicon) (hrows : rows.Serves a)
    (hr : r < rows.rows.size) :
    ∃ rule, (ofRows options log a rows).tables.rowRules[r]? = some rule ∧
      ∀ id ∈ rule, id < a.rules.size := by
  have hset := Array.getElem?_eq_getElem hr
  obtain ⟨acc, hacc, haccept⟩ := hrows.accept hset
  refine ⟨acc.map Accept.rule, ?_, fun id hid => ?_⟩
  · show (rows.accepts.map (·.map Accept.rule))[r]? = _
    rw [Array.getElem?_map, haccept]
    rfl
  · obtain ⟨x, rfl, rfl⟩ := Option.map_eq_some_iff.1 hid
    -- What the engine finds for the row is accepted by a member, and so belongs to a rule.
    obtain ⟨i, hi⟩ := hrows.inLexState hset
    obtain ⟨acc', hacc', hlowest⟩ := h.exists_acceptOf hi
    rw [hacc] at hacc'
    cases hacc'
    obtain ⟨⟨q, -, hq⟩, -⟩ := hlowest
    obtain ⟨info, _, hinfo, -⟩ := h.accept hq
    exact (Array.getElem?_eq_some_iff.1 hinfo).1

/-- A rule enters a lexical state of the lexicon. -/
theorem nextState_lt (h : a.Implements lexicon) {terminal : Terminal}
    (hterminal : terminal ∈ (ofRows options log a rows).tables.terminals)
    (hi : i ∈ terminal.nextState) : i < lexicon.states.length := by
  obtain ⟨id, hid⟩ := Array.getElem?_of_mem hterminal
  obtain ⟨info, hinfo, rfl⟩ := Option.map_eq_some_iff.1 (Array.getElem?_map.symm.trans hid)
  -- The rule with this number is in the lexicon, and names the lexical state that it enters.
  have hlt : id < lexicon.numbered.length :=
    h.ruleCount ▸ (Array.getElem?_eq_some_iff.1 hinfo).1
  obtain ⟨info', hinfo', -, -, -, -, hnext, -⟩ := h.rule (List.getElem?_eq_getElem hlt)
  rw [hinfo] at hinfo'
  cases hinfo'
  rw [show info.nextState = some i from hi] at hnext
  obtain ⟨name, -, hj⟩ := Option.bind_eq_some_iff.1 hnext.symm
  exact (List.findIdx?_eq_some_iff_getElem.1 hj).1

/-- A lexical state starts with a row. -/
theorem startRow_lt (hrows : rows.Serves a) {entry : LexEntry}
    (hentry : entry ∈ (ofRows options log a rows).tables.lexStates) (hr : r ∈ entry.startRow) :
    r < rows.rows.size := by
  obtain ⟨i, info, hinfo, rfl⟩ := exists_lexState_of_entry hentry
  have hstart := hrows.start hinfo
  obtain ⟨bound, hbound, rfl⟩ := Option.map_eq_some_iff.1 hr
  rw [hbound] at hstart
  exact (Array.getElem?_eq_some_iff.1 hstart).1

/-- The rule of a lexical state for the end of the input is one of the lexicon. -/
theorem eofRule_lt (h : a.Implements lexicon) {entry : LexEntry}
    (hentry : entry ∈ (ofRows options log a rows).tables.lexStates) {id : Nat}
    (hid : id ∈ entry.eofRule) : id < a.rules.size := by
  obtain ⟨i, info, hinfo, rfl⟩ := exists_lexState_of_entry hentry
  obtain ⟨rule, hrule, -⟩ := (h.eofRule hinfo).1 hid
  rw [h.ruleCount]
  exact (List.getElem?_eq_some_iff.1 hrule).1

/-- The members of rows are states. -/
theorem member_lt (h : a.Implements lexicon) (hrows : rows.Serves a)
    (hq : q ∈ (ofRows options log a rows).tables.rowMembers) :
    q < (ofRows options log a rows).tables.transitions.size := by
  have hserves : (ofRows options log a rows).tables.Serves a := serves_ofRows h hrows
  obtain ⟨members, hmembers, hq⟩ := List.mem_flatten.1 (List.mem_toArray.1 hq)
  obtain ⟨set, hset, rfl⟩ := List.mem_map.1 hmembers
  obtain ⟨r, hr⟩ := List.getElem?_of_mem hset
  rw [Array.getElem?_toList] at hr
  have hrow : q ∈ (ofRows options log a rows).tables.row r := by
    rw [← Array.mem_toList_iff, row_ofRows hr]
    exact hq
  exact hserves.fits hrow

/-- A move has a class and leads to a row. -/
theorem transition_lt (h : a.Implements lexicon) (hrows : rows.Serves a) {move : Transition}
    (hmove : some move ∈ (ofRows options log a rows).tables.transitions) :
    move.charClass < (ofRows options log a rows).tables.classes.size ∧
      move.nextRow < rows.rows.size := by
  obtain ⟨q, state, set, target, hstate, hset, hnext, htransition⟩ :=
    exists_state_of_transition hmove
  obtain ⟨id, hid, hlt, -⟩ :
      ∃ id, (ofRows options log a rows).tables.transitions[q]? = some (some ⟨id, move.nextRow⟩) ∧
        id < (ofRows options log a rows).tables.classes.size ∧ _ :=
    exists_class h hstate hset hnext
  rw [htransition, Option.some.injEq, Option.some.injEq] at hid
  have hclass : move.charClass = id := congrArg Transition.charClass hid
  rw [hclass]
  exact ⟨hlt, hrows.nextRow_lt hnext⟩

/-- The classes are those of a compiler that is closed. -/
theorem closed_compiler (a : Automaton) (rows : Rows) :
    ((moveSets a rows).items.foldl ClassPool.add {}).compiler.Closed := by
  rw [← Array.foldl_toList]
  exact ClassPool.closed_foldl_add ClassCompiler.closed_default _

/-- The page map of a test is one of the tables. -/
theorem pageMap_lt {test : ClassTest} (htest : test ∈ (ofRows options log a rows).tables.classes)
    {map : Nat} (hmap : map ∈ test.pageMap) :
    map < (ofRows options log a rows).tables.classTables.pageMaps.size := by
  obtain ⟨i, hi⟩ := Array.getElem?_of_mem htest
  show map < (ClassCompiler.bounds 0 _).toArray.size
  rw [List.size_toArray, bounds_eq_rowBounds, length_rowBounds, List.length_map,
    Array.length_toList]
  exact (closed_compiler a rows).pageMap hi map hmap

/-- The tables of an automaton are closed. -/
theorem closed_ofRows (h : a.Implements lexicon) (hrows : rows.Serves a) :
    (ofRows options log a rows).tables.Closed := by
  have hserves : (ofRows options log a rows).tables.Serves a := serves_ofRows h hrows
  -- Each reference of the tables by itself: what it refers to, and why that exists.
  have hlexStates : (ofRows options log a rows).tables.lexStates.size = lexicon.states.length :=
    hserves.lexStates.trans h.stateCount
  constructor
  case nonempty =>
    rw [hlexStates]
    exact h.nonempty
  case nextState =>
    intro terminal hterminal i hi
    rw [hlexStates]
    exact nextState_lt h hterminal hi
  case startRow =>
    intro entry hentry r hr
    rw [size_rows_ofRows]
    exact startRow_lt hrows hentry hr
  case eofRule =>
    intro entry hentry id hid
    rw [size_terminals_ofRows]
    exact eofRule_lt h hentry hid
  case slice =>
    intro b hb
    exact slice_le (List.mem_toArray.1 hb)
  case member =>
    intro q hq
    exact member_lt h hrows hq
  case rowRule =>
    intro r hr
    rw [size_rows_ofRows] at hr
    rw [size_terminals_ofRows]
    exact exists_rowRule h hrows hr
  case transition =>
    intro move hmove
    rw [size_rows_ofRows]
    exact transition_lt h hrows hmove
  case pageMap =>
    intro test htest map hmap
    exact pageMap_lt htest hmap
  case classTables => exact (closed_compiler a rows).tables

end Compilation

/-- The tables of a lexicon that compiles are closed. -/
theorem closed_of_compile {k : Compilation} (h : compile lexicon options = .ok k) :
    k.tables.Closed := by
  obtain ⟨himplements, rows, later, -, hserves, rfl⟩ := exists_ofRows_of_compile h
  exact Compilation.closed_ofRows himplements hserves

end Lexwright

import Lexwright.Proofs.Automaton.Unmatched
import Lexwright.Proofs.Compile
import Lexwright.Proofs.Emit.Arrays

/-!
# `Lexwright.Proofs.Emit.Faithful`: the emitted source holds the tables

* `Tables.arrays`: the ten arrays that tables amount to. They are read back as the tables
  (`tables?_arrays`), and each has as many elements as it declares (`length_elements_arrays`).
* `Compilation.Printable`: what the lines of a module rely on: every rule, lexical state and class
  has a name of one line, and the rows are all there is in the array of their members.
* `declares_sourceLines`: the lines of a printable module declare the ten arrays and no other.
* `source_faithful`: the source of a lexicon that compiles is read as its tables.
-/

set_option autoImplicit false

namespace Lexwright

open Source

variable {lexicon : Lexicon} {options : Options} {a : Automaton}
  {k : Compilation}

/-! ### The arrays of tables -/

/-- The ten arrays that hold the tables. -/
def Tables.arrays (t : Tables) : List StaticArray := [
  arrayOf "TERMINALS" "Terminal" Emit.terminal t.terminals.toList,
  arrayOf "LEX_STATES" "LexStateEntry" Emit.lexEntry t.lexStates.toList,
  arrayOf "ROWS" "(u32, u32)" Emit.pair t.rows.toList,
  arrayOf "ROW_MEMBERS" "StateId" toString t.rowMembers.toList,
  arrayOf "ROW_RULES" "Option<RuleId>" Emit.optional t.rowRules.toList,
  arrayOf "TRANSITIONS" "Option<Transition>" Emit.transition t.transitions.toList,
  arrayOf "CLASSES" "ClassTest" Emit.classTest t.classes.toList,
  arrayOf "BIT_VECTORS" "BitVec256" Page.debug t.classTables.pages.toList,
  arrayOf "PAGE_MAPS" "(u32, u32)" Emit.pair t.classTables.pageMaps.toList,
  arrayOf "PAGE_ENTRIES" "(PageId, BitVecId)" Emit.pair
    (t.classTables.pageEntries.toList.map fun entry => (entry.page, entry.bits))]

/-- Every array has as many elements as it is declared with. -/
theorem length_elements_arrays (t : Tables) :
    ∀ array ∈ t.arrays, array.elements.length = array.size := by
  intro array harray
  simp only [Tables.arrays, List.mem_cons, List.not_mem_nil, or_false] at harray
  rcases harray with rfl | rfl | rfl | rfl | rfl | rfl | rfl | rfl | rfl | rfl <;>
    exact List.length_map _

/-- The arrays are read as the tables. -/
theorem tables?_arrays (t : Tables) : tables? t.arrays = some t := by
  simp only [Tables.arrays, tables?, read?_arrayOf spells_terminal, read?_arrayOf spells_lexEntry,
    read?_arrayOf spells_pair, read?_arrayOf spells_number, read?_arrayOf spells_optional,
    read?_arrayOf spells_transition, read?_arrayOf spells_classTest, read?_arrayOf spells_page,
    Option.bind_eq_bind, Option.bind_some, Array.toArray_toList, ← Array.toList_map]
  have hentries : (t.classTables.pageEntries.map fun entry => (entry.page, entry.bits)).map
      (fun entry => PageEntry.mk entry.1 entry.2) = t.classTables.pageEntries := by
    rw [Array.map_map]
    exact Array.map_id _
  rw [hentries]
  rfl

/-! ### The lines of a module -/

namespace Compilation

/-- What the lines of a module rely on. -/
structure Printable (k : Compilation) : Prop where
  ruleCount : k.ruleNames.size = k.tables.terminals.size
  ruleNames : ∀ name ∈ k.ruleNames.toList, OneLine name
  stateCount : k.stateNames.size = k.tables.lexStates.size
  stateNames : ∀ name ∈ k.stateNames.toList, OneLine name
  classCount : k.classNames.size = k.tables.classes.size
  classNames : ∀ name ∈ k.classNames.toList, OneLine name
  /-- The members of the rows, one row after another, are all the members. -/
  members : ((List.range k.tables.rows.size).map fun r => (k.tables.row r).toList).flatten =
    k.tables.rowMembers.toList

/-- A lexicon that compiles has a printable module, if its labels and names are one line each. -/
theorem printable_ofRows (options : Options) (log : Log) (rows : Rows)
    (himplements : a.Implements lexicon) (h : lexicon.Unbroken) :
    (ofRows options log a rows).Printable := by
  have hpool : ((moveSets a rows).items.foldl ClassPool.add {}).Named := by
    rw [← Array.foldl_toList]
    exact ClassPool.named_foldl _ ⟨rfl, fun name hname => absurd hname List.not_mem_nil⟩
  refine {
    ruleCount := by
      rw [size_terminals_ofRows]
      exact Array.size_map
    ruleNames := Automaton.oneLine_rules himplements h
    stateCount := by
      show (a.lexStates.map _).size = (a.lexStates.mapIdx _).size
      rw [Array.size_map, Array.size_mapIdx]
    stateNames := Automaton.oneLine_lexStates himplements h
    classCount := hpool.size
    classNames := hpool.oneLine
    members := ?_ }
  -- row by row, the slices are the rows that were laid out
  have hrows : ((List.range (ofRows options log a rows).tables.rows.size).map fun r =>
      ((ofRows options log a rows).tables.row r).toList) =
      rows.rows.toList.map SortedSet.toList := by
    refine List.ext_getElem ?_ fun r hr hr' => ?_
    · rw [List.length_map, List.length_map, List.length_range, size_rows_ofRows,
        Array.length_toList]
    · rw [List.getElem_map, List.getElem_map, List.getElem_range]
      exact row_ofRows (Array.getElem?_eq_getElem _)
  rw [hrows]
  rfl

/-- The comments on a row write nothing. -/
theorem writes_rowComments (k : Compilation) (id : Nat) {name : String} (hname : OneLine name) :
    Writes (k.rowComments id name) [] := by
  have hstate : ∀ rest : String, OneLine rest →
      Writes ["// lexical state " ++ (toString id ++ (" '" ++ (name ++ rest)))] [] :=
    fun rest hrest => writes_remark " lexical state " (by decide) (by decide)
      ((oneLine_toString id).append (.append (by decide) (hname.append hrest)))
  unfold rowComments
  split
  · rename_i first count _
    refine writes_remarks fun line hline => ?_
    rcases List.mem_cons.1 hline with rfl | hline
    · simp only [String.append_assoc]
      exact hstate _ (.append (by decide) ((oneLine_toString first).append
        (.append (by decide) (oneLine_toString (first + count)))))
    · obtain ⟨row, -, rfl⟩ := List.mem_map.1 hline
      simp only [String.append_assoc]
      refine writes_remark " - row " (by decide) (by decide) ((oneLine_toString row).append
        (.append (by decide) (.append ?_ (.append (by decide) ?_))))
      · cases k.rows.rows[row]? with
        | none => decide
        | some set => exact oneLine_stateSet set
      · split
        · exact oneLine_toString _
        · decide
  · refine writes_remarks fun line hline => ?_
    rw [List.mem_singleton.1 hline]
    simp only [String.append_assoc]
    exact hstate _ (by decide)

/-- The lines of a printable module declare the arrays of its tables, in order, and no other. -/
theorem declares_sourceLines (h : k.Printable) : Declares k.sourceLines k.tables.arrays := by
  have hremarks : Declares
      (k.stateNames.toList.zipIdx.flatMap fun s => k.rowComments s.2 s.1) [] := by
    have hwrites := Writes.flatMap fun (s : String × Nat) (hs : s ∈ k.stateNames.toList.zipIdx) =>
      writes_rowComments k s.2 (h.stateNames s.1 (List.fst_mem_of_mem_zipIdx hs))
    exact hwrites.declares (by simp)
  -- Each array by itself, with its name, the type of its elements and the way they are printed.
  let t := k.tables
  have hterminals : Declares _ [arrayOf "TERMINALS" "Terminal" Emit.terminal t.terminals.toList] :=
    declares_arrayOf (by decide) spells_terminal
      (writes_named h.ruleCount h.ruleNames fun t => (spells_terminal t).plain)
  have hlexStates : Declares _
      [arrayOf "LEX_STATES" "LexStateEntry" Emit.lexEntry t.lexStates.toList] :=
    declares_arrayOf (by decide) spells_lexEntry
      (writes_named h.stateCount h.stateNames fun e => (spells_lexEntry e).plain)
  have hrows : Declares _ [arrayOf "ROWS" "(u32, u32)" Emit.pair t.rows.toList] :=
    declares_arrayOf (by decide) spells_pair
      (writes_numbered ", // row " " row " (by decide) (by decide) fun p => (spells_pair p).plain)
  have hmembers : Declares _ [arrayOf "ROW_MEMBERS" "StateId" toString t.rowMembers.toList] :=
    declares_arrayOf (by decide) spells_number (h.members ▸ writes_rowLines _)
  have hrules : Declares _
      [arrayOf "ROW_RULES" "Option<RuleId>" Emit.optional t.rowRules.toList] :=
    declares_arrayOf (by decide) spells_optional
      (writes_chunks 16 fun r => (spells_optional (d := 0) r).plain)
  have htransitions : Declares _
      [arrayOf "TRANSITIONS" "Option<Transition>" Emit.transition t.transitions.toList] :=
    declares_arrayOf (by decide) spells_transition
      (writes_numbered ", // state " " state " (by decide) (by decide) fun m =>
        (spells_transition m).plain)
  have hclasses : Declares _ [arrayOf "CLASSES" "ClassTest" Emit.classTest t.classes.toList] :=
    declares_arrayOf (by decide) spells_classTest
      (writes_named h.classCount h.classNames fun t => (spells_classTest t).plain)
  have hpages : Declares _
      [arrayOf "BIT_VECTORS" "BitVec256" Page.debug t.classTables.pages.toList] :=
    declares_arrayOf (by decide) spells_page (writes_each fun p => (spells_page p).plain)
  have hmaps : Declares _
      [arrayOf "PAGE_MAPS" "(u32, u32)" Emit.pair t.classTables.pageMaps.toList] :=
    declares_arrayOf (by decide) spells_pair (writes_each fun p => (spells_pair p).plain)
  have hentries : Declares _ [arrayOf "PAGE_ENTRIES" "(PageId, BitVecId)" Emit.pair
      (t.classTables.pageEntries.toList.map fun entry => (entry.page, entry.bits))] :=
    declares_arrayOf (by decide) spells_pair (writes_each fun p => (spells_pair p).plain)
  rw [List.length_map, List.map_map] at hentries
  -- The lines around the arrays declare nothing.
  have himports : Declares Emit.imports [] := declares_nothing (by decide +kernel)
  have hblank : Declares [""] [] := declares_nothing (by decide)
  have hconstructor : Declares Emit.constructor [] := declares_nothing (by decide +kernel)
  exact himports.append hremarks |>.append hblank |>.append hterminals |>.append hlexStates
    |>.append hrows |>.append hmembers |>.append hrules |>.append htransitions |>.append hclasses
    |>.append hpages |>.append hmaps |>.append hentries |>.append hconstructor

end Compilation

/-! ### Reading the source -/

/-- The lines of the module of a lexicon that compiles declare its tables. -/
theorem declares_of_compile (h : compile lexicon options = .ok k) (hunbroken : lexicon.Unbroken) :
    Declares k.sourceLines k.tables.arrays := by
  obtain ⟨himplements, rows, log, -, -, rfl⟩ := exists_ofRows_of_compile h
  exact Compilation.declares_sourceLines
    (Compilation.printable_ofRows options log rows himplements hunbroken)

/-- The arrays of the source of a lexicon that compiles. -/
theorem arrays?_source (h : compile lexicon options = .ok k) (hunbroken : lexicon.Unbroken)
    (hheaders : options.headers = []) (width : Nat) :
    arrays? (lexemes (dropComments false (k.source width).toList)) = some k.tables.arrays := by
  have hlines := declares_of_compile h hunbroken
  have harrays := hlines.arrays []
  rw [List.append_nil] at harrays
  rw [lexemes_source ((options_of_compile h).symm ▸ hheaders) hlines.oneLine, harrays]
  exact congrArg some (List.append_nil _)

/-- The source of a lexicon that compiles, without headers, is read as its tables: without its
comments it has ten static arrays, each has as many elements as it declares, and the elements are
those of the tables. So lexicons with different tables have different sources. Labels, references
and names of lexical states stand in comments, which they must not end. -/
theorem source_faithful (h : compile lexicon options = .ok k) (hunbroken : lexicon.Unbroken)
    (hheaders : options.headers = []) (width : Nat) :
    (∃ arrays, arrays? (lexemes (dropComments false (k.source width).toList)) = some arrays ∧
      (∀ array ∈ arrays, array.elements.length = array.size) ∧
      tables? arrays = some k.tables) ∧
    ∀ (lexicon' : Lexicon) (options' : Options) (k' : Compilation) (width' : Nat),
      compile lexicon' options' = .ok k' → lexicon'.Unbroken → options'.headers = [] →
      k.tables ≠ k'.tables → k.source width ≠ k'.source width' := by
  refine ⟨⟨_, arrays?_source h hunbroken hheaders width, length_elements_arrays _,
    tables?_arrays _⟩, ?_⟩
  intro lexicon' options' k' width' h' hunbroken' hheaders' hne hsame
  -- one text is read in one way
  have harrays := arrays?_source h hunbroken hheaders width
  rw [hsame, arrays?_source h' hunbroken' hheaders' width'] at harrays
  have htables := tables?_arrays k.tables
  rw [← Option.some.inj harrays, tables?_arrays] at htables
  exact hne (Option.some.inj htables).symm

/-- The sources of two sample lexicons, whatever their margins. -/
theorem source_faithful_words : ∃ k k', compile Lexicon.words Options.quiet = .ok k ∧
    compile Lexicon.masked Options.quiet = .ok k' ∧
    (∃ arrays, arrays? (lexemes (dropComments false (k.source 4).toList)) = some arrays ∧
      (∀ array ∈ arrays, array.elements.length = array.size) ∧
      tables? arrays = some k.tables) ∧
    ∀ width, k.source 4 ≠ k'.source width := by
  obtain ⟨k, hk⟩ := @exists_compile Lexicon.words Options.quiet rfl hasNoErrors_words rfl
  obtain ⟨k', hk'⟩ := @exists_compile Lexicon.masked Options.quiet rfl hasNoErrors_masked rfl
  have hwords : Lexicon.words.Unbroken := ⟨by decide, by decide⟩
  have hmasked : Lexicon.masked.Unbroken := ⟨by decide, by decide⟩
  -- the second rule of the one skips blanks, that of the other is a token
  have hne : k.tables ≠ k'.tables := by
    intro hsame
    have hskip := exists_terminal hk (show Lexicon.words.numbered[1]? = some (0, _) from rfl)
    have htoken := exists_terminal hk' (show Lexicon.masked.numbered[1]? = some (0, _) from rfl)
    rw [hsame, htoken] at hskip
    exact absurd hskip (by decide)
  obtain ⟨hread, hother⟩ := source_faithful hk hwords rfl 4
  exact ⟨k, k', hk, hk', hread, fun width => hother _ _ _ width hk' hmasked rfl hne⟩

end Lexwright

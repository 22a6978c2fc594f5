import Mathlib.Algebra.Order.BigOperators.Group.List
import Lexwright.Proofs.Automaton.Renaming
import Lexwright.Proofs.Emit.Faithful

/-!
# `Lexwright.Proofs.Emit.Comments`: names stand in comments only

* `Compilation.nameless`: what the compiler made, without names. Every line has the same code with
  names and without (`map_bare_nameless`).
* `source_rename`: so the emitted modules of a lexicon and of a renamed lexicon have the same code
  in each line, and are the same but for the comments where no name has a line break.
* `dropComments_rename_ne`: a line break in a name ends the comment that the name stands in, and
  what follows it is read as code.
-/

set_option autoImplicit false

namespace Lexwright

open Source

/-! ### Line breaks -/

namespace Source

/-- Line breaks end comments and stay. -/
theorem count_dropComments (inside : Bool) (s : List Char) :
    (dropComments inside s).count '\n' = s.count '\n' := by
  fun_induction dropComments inside s with
  | case1 => rfl
  | case2 inside rest ih => rw [List.count_cons_self, List.count_cons_self, ih]
  | case3 inside c rest hbreak hcomment ih => rw [ih, List.count_cons_of_ne hbreak]
  | case4 inside c rest hbreak hcode ih =>
    rw [List.count_cons_of_ne hbreak, List.count_cons_of_ne hbreak, ih]

/-- Printed lines have the line breaks of their texts, and one at the end of each. -/
theorem count_lines (lines : List String) (width : Nat) :
    (String.join (lines.map (printed width))).toList.count '\n' =
      (lines.map fun line => line.toList.count '\n').sum + lines.length := by
  have hprinted : ∀ line, (printed width line).toList.count '\n' =
      line.toList.count '\n' + 1 := by
    intro line
    unfold printed
    split
    · simp
    · simp [List.count_eq_zero, List.mem_replicate]
  rw [String.toList_join, List.flatMap_map]
  induction lines with
  | nil => rfl
  | cons line lines ih =>
    rw [List.flatMap_cons, List.count_append, ih, hprinted, List.map_cons, List.sum_cons,
      List.length_cons]
    omega

end Source

/-! ### A module without names -/

/-- The headers as they stand in front of a module. -/
def Emit.preamble (headers : List String) (width : Nat) : String :=
  if headers.isEmpty then "" else indent width [headers] ++ "\n"

namespace Compilation

/-- The text of the module, behind the headers. -/
def moduleText (k : Compilation) (width : Nat) : String := Emit.indent width [k.sourceLines]

/-- The text of the module consists of the printed lines. -/
theorem moduleText_eq (k : Compilation) (width : Nat) :
    k.moduleText width = String.join (k.sourceLines.map (printed width)) := by
  unfold moduleText Emit.indent
  exact String.intercalate_singleton

/-- The source is the preamble and the text of the module. -/
theorem source_eq (k : Compilation) (width : Nat) :
    k.source width = Emit.preamble k.options.headers width ++ k.moduleText width := by
  unfold source Emit.preamble moduleText Emit.indent
  split
  · simp
  · simp

/-- What the compiler made, without the names of rules and lexical states. -/
def nameless (k : Compilation) : Compilation :=
  { k with
    ruleNames := k.ruleNames.map fun _ => ""
    stateNames := k.stateNames.map fun _ => "" }

/-- The comments on the rows of a lexical state: its name stands in the first of them. -/
theorem map_bare_rowComments (k : Compilation) (width id : Nat) (name : String) :
    (k.rowComments id name).map (bare width) = (k.rowComments id "").map (bare width) := by
  have hname : ∀ name rest : String,
      bare width ("// lexical state " ++ (toString id ++ (" '" ++ (name ++ rest)))) =
        List.replicate width ' ' ++ [] := by
    intro name rest
    have hslashes : "// lexical state " = "" ++ ("//" ++ " lexical state ") := by decide
    rw [hslashes]
    simp only [String.append_assoc]
    exact bare_comment (by decide) width _
  unfold rowComments
  split
  · simp only [List.map_cons, String.append_assoc]
    exact congrArg (· :: _) ((hname name _).trans (hname "" _).symm)
  · simp only [List.map_cons, String.append_assoc]
    exact congrArg (· :: _) ((hname name _).trans (hname "" _).symm)

/-- The elements of an array: a name stands in the comment behind its element. -/
theorem map_bare_named {elements : List String} (helements : ∀ e ∈ elements, '/' ∉ e.toList)
    (array type : String) (size : Nat) (names : Array String) (width : Nat) :
    (Emit.staticArray array type size (named elements names.toList)).map (bare width) =
      (Emit.staticArray array type size
        (named elements (names.map fun _ => "").toList)).map (bare width) := by
  have hlines : ((named elements names.toList).map ("    " ++ ·)).map (bare width) =
      ((named elements (names.map fun _ => "").toList).map ("    " ++ ·)).map (bare width) := by
    unfold named
    rw [Array.toList_map, List.zip_map_right, List.zipIdx_map]
    simp only [List.map_map]
    refine List.map_congr_left fun e he => ?_
    obtain ⟨helement, -⟩ := List.of_mem_zip (List.fst_mem_of_mem_zipIdx he)
    have hslash : '/' ∉ ("    " ++ e.1.1 ++ ", ").toList := by simp [helements _ helement]
    have hname : ∀ name : String, bare width ("    " ++ s!"{e.1.1}, // {e.2}: {name}") =
        List.replicate width ' ' ++ ("    " ++ e.1.1 ++ ", ").toList := by
      intro name
      have hslashes : ", // " = ", " ++ ("//" ++ " ") := by decide
      have hline : "    " ++ (e.1.1 ++ ", // " ++ toString e.2 ++ ": " ++ name) =
          ("    " ++ e.1.1 ++ ", ") ++ ("//" ++ (" " ++ toString e.2 ++ ": " ++ name)) := by
        rw [hslashes]
        simp only [String.append_assoc]
      exact (congrArg (bare width) hline).trans (bare_comment hslash width _)
    exact (hname e.1.2).trans (hname "").symm
  simp only [Emit.staticArray, List.map_append, List.map_cons, hlines]

/-- Every line has the same code with names and without, whatever the names are. -/
theorem map_bare_nameless (k : Compilation) (width : Nat) :
    k.sourceLines.map (bare width) = k.nameless.sourceLines.map (bare width) := by
  have hremarks : (k.stateNames.toList.zipIdx.flatMap fun s => k.rowComments s.2 s.1).map
      (bare width) = ((k.nameless.stateNames.toList.zipIdx.flatMap fun s =>
        k.rowComments s.2 s.1).map (bare width)) := by
    simp only [nameless, Array.toList_map, List.zipIdx_map, List.flatMap_map, List.map_flatMap]
    exact congrArg (List.flatMap · _) (funext fun s => map_bare_rowComments k width s.2 s.1)
  have hterminals : ∀ e ∈ k.tables.terminals.toList.map Emit.terminal, '/' ∉ e.toList := by
    intro e he
    obtain ⟨t, -, rfl⟩ := List.mem_map.1 he
    exact (spells_terminal t).plain.not_slash
  have hlexStates : ∀ e ∈ k.tables.lexStates.toList.map Emit.lexEntry, '/' ∉ e.toList := by
    intro e he
    obtain ⟨s, -, rfl⟩ := List.mem_map.1 he
    exact (spells_lexEntry s).plain.not_slash
  unfold sourceLines
  simp only [List.map_append]
  rw [hremarks, map_bare_named hterminals, map_bare_named hlexStates]
  rfl

/-- What is made of the automaton of a lexicon without its names is what is made of the automaton,
without the names. -/
theorem nameless_ofRows (options : Options) (log : Log) (a : Automaton) (rows : Rows) :
    (ofRows options log a rows).nameless = ofRows options log a.nameless rows := by
  have hlexStates : (a.lexStates.mapIdx fun i s =>
      (⟨(rows.lexStates[i]?.join).map Prod.fst, s.eofRule⟩ : LexEntry)) =
      (a.lexStates.map LexStateInfo.nameless).mapIdx fun i s =>
        ⟨(rows.lexStates[i]?.join).map Prod.fst, s.eofRule⟩ := by
    refine Array.ext (by simp) fun i hi hi' => ?_
    simp [LexStateInfo.nameless]
  simp only [nameless, ofRows, Automaton.nameless, Array.map_map, hlexStates]
  rfl

end Compilation

/-! ### The source of a renamed lexicon -/

section Renamed

variable {ρ σ : String → String} {lexicon lexicon' : Lexicon} {options options' : Options}
  {k k' : Compilation}

/-- The lines of the modules of a lexicon and of a renamed lexicon have the same code, whatever the
names are. -/
theorem map_bare_rename (hstates : lexicon'.states = lexicon.states.map (LexState.rename ρ σ))
    (h : compile lexicon options = .ok k) (h' : compile lexicon' options' = .ok k')
    (width : Nat) : k'.sourceLines.map (bare width) = k.sourceLines.map (bare width) := by
  have hsame := Automaton.nameless_ofLexicon_rename hstates (builtCleanly_of_compile h)
    (builtCleanly_of_compile h')
  obtain ⟨-, rows, log, hrows, -, rfl⟩ := exists_ofRows_of_compile h
  obtain ⟨-, rows', log', hrows', -, rfl⟩ := exists_ofRows_of_compile h'
  -- the rows are found without the names
  rw [← Rows.ofEngine_nameless, hsame, Rows.ofEngine_nameless, hrows] at hrows'
  cases hrows'
  rw [Compilation.map_bare_nameless, Compilation.nameless_ofRows, hsame,
    Compilation.map_bare_nameless (Compilation.ofRows options log _ rows),
    Compilation.nameless_ofRows]
  rfl

/-- Names stand in comments. Where a lexicon and a renamed lexicon both compile, and the headers and
the margin are the same, the two sources begin with the same headers, and each line of the modules
behind them has the same code, whatever the names are. Where no name has a line break, the lines
stay lines, so the modules are the same but for the comments. -/
theorem source_rename (hstates : lexicon'.states = lexicon.states.map (LexState.rename ρ σ))
    (hheaders : options'.headers = options.headers) (h : compile lexicon options = .ok k)
    (h' : compile lexicon' options' = .ok k') (width : Nat) :
    k.source width = Emit.preamble options.headers width ++ k.moduleText width ∧
      k'.source width = Emit.preamble options.headers width ++ k'.moduleText width ∧
      k'.sourceLines.map (bare width) = k.sourceLines.map (bare width) ∧
      (lexicon.Unbroken → lexicon'.Unbroken →
        dropComments false (k'.moduleText width).toList =
          dropComments false (k.moduleText width).toList) := by
  have hcode := map_bare_rename hstates h h' width
  refine ⟨?_, ?_, hcode, fun hunbroken hunbroken' => ?_⟩
  · rw [Compilation.source_eq, options_of_compile h]
  · rw [Compilation.source_eq, options_of_compile h', hheaders]
  · rw [Compilation.moduleText_eq, Compilation.moduleText_eq,
      dropComments_lines (declares_of_compile h hunbroken).oneLine,
      dropComments_lines (declares_of_compile h' hunbroken').oneLine, hcode]

/-! ### Names with a line break -/

/-- The rules are shown by their names. -/
theorem name_mem_ruleNames (h : compile lexicon options = .ok k) {i : Nat} {rule : Rule}
    (hrule : (i, rule) ∈ lexicon.numbered) : rule.name ∈ k.ruleNames.toList := by
  obtain ⟨himplements, rows, log, -, -, rfl⟩ := exists_ofRows_of_compile h
  obtain ⟨id, hid⟩ := List.getElem?_of_mem hrule
  obtain ⟨j, state, hstate, -⟩ := Lexicon.exists_of_numbered hid
  obtain ⟨info, hinfo, -⟩ := himplements.rule hid
  obtain ⟨hname, -⟩ := himplements.shown hid hinfo hstate
  rw [← hname]
  exact Array.mem_toList_iff.2 (Array.mem_map_of_mem (Array.mem_of_getElem? hinfo))

/-- A line ends with the name of a rule. -/
theorem exists_line_of_name (h : compile lexicon options = .ok k) {name : String}
    (hname : name ∈ k.ruleNames.toList) : ∃ front, front ++ name ∈ k.sourceLines := by
  have hcount : k.tables.terminals.toList.length = k.ruleNames.toList.length := by
    obtain ⟨-, rows, log, -, -, rfl⟩ := exists_ofRows_of_compile h
    simp [Compilation.ofRows]
  obtain ⟨id, hid⟩ := List.getElem?_of_mem hname
  have hlt := (List.getElem?_eq_some_iff.1 hid).1
  rw [← hcount] at hlt
  let element := Emit.terminal k.tables.terminals.toList[id]
  have hpair : (List.zip (k.tables.terminals.toList.map Emit.terminal) k.ruleNames.toList)[id]? =
      some (element, name) := by
    rw [List.getElem?_zip_eq_some]
    exact ⟨by rw [List.getElem?_map, List.getElem?_eq_getElem hlt]; rfl, hid⟩
  have hnamed : element ++ ", // " ++ toString id ++ ": " ++ name ∈
      Compilation.named (k.tables.terminals.toList.map Emit.terminal) k.ruleNames.toList :=
    List.mem_map.2 ⟨((element, name), id), List.mem_zipIdx_iff_getElem?.2 hpair, rfl⟩
  refine ⟨"    " ++ (element ++ ", // " ++ toString id ++ ": "), ?_⟩
  rw [String.append_assoc]
  have hline := List.mem_map_of_mem (f := ("    " ++ ·)) hnamed
  unfold Compilation.sourceLines Emit.staticArray
  simp only [List.mem_append, List.mem_cons, hline, true_or, or_true]

/-- Where a name gets a line break, what follows the line break is read as code: the module has a
line more than under names without a line break, and its code differs. -/
theorem dropComments_rename_ne
    (hstates : lexicon'.states = lexicon.states.map (LexState.rename ρ σ))
    (h : compile lexicon options = .ok k) (h' : compile lexicon' options' = .ok k')
    (hunbroken : lexicon.Unbroken) {i : Nat} {rule : Rule} (hrule : (i, rule) ∈ lexicon'.numbered)
    (hbreak : ¬OneLine rule.name) (width : Nat) :
    dropComments false (k'.moduleText width).toList ≠
      dropComments false (k.moduleText width).toList := by
  intro hsame
  -- The line breaks are counted: there are as many lines, and the broken name adds one.
  have hcount := congrArg (List.count '\n') hsame
  obtain ⟨front, hline⟩ := exists_line_of_name h' (name_mem_ruleNames h' hrule)
  have hlength : k'.sourceLines.length = k.sourceLines.length := by
    simpa using congrArg List.length (map_bare_rename hstates h h' width)
  rw [Compilation.moduleText_eq, Compilation.moduleText_eq, count_dropComments,
    count_dropComments, count_lines, count_lines, hlength] at hcount
  have hzero : (k.sourceLines.map fun line => line.toList.count '\n').sum = 0 := by
    refine List.sum_eq_zero fun n hn => ?_
    obtain ⟨line, hline, rfl⟩ := List.mem_map.1 hn
    exact List.count_eq_zero.2 ((declares_of_compile h hunbroken).oneLine line hline)
  have hpos : 0 < (front ++ rule.name).toList.count '\n' := by
    rw [List.count_pos_iff, String.toList_append]
    exact List.mem_append_right _ (not_not.1 hbreak)
  have hle : (front ++ rule.name).toList.count '\n' ≤
      (k'.sourceLines.map fun line => line.toList.count '\n').sum :=
    List.le_sum_of_mem (List.mem_map_of_mem hline)
  omega

end Renamed

/-! ### A lexicon with any two names -/

/-- A letter under a label, and the letter in front of another one. -/
def Lexicon.tagged (label name : String) : Lexicon where
  states := [{ name, rules := [
    { ordinal := 0, kind := 1, regex := letter label },
    { ordinal := 1, kind := 2, nextState := some name,
      regex := .seq {} [.ref {} label, .chars {} false [('b', 'b')]] }] }]
where
  letter (label : String) : Regex := .chars { label := some label } false [('a', 'a')]

section Tagged

variable (label name : String)

/-- The sample has one label and one lexical state, whatever they are called. -/
theorem environment_tagged : (Builder.ofLexicon (.tagged label name) .quiet).env =
    ⟨(∅ : Labels).insert label ⟨⟨0, 0, []⟩, Lexicon.tagged.letter label⟩,
      (∅ : Std.HashMap String Nat).insert name 0, 1000⟩ ∧
    (Builder.ofLexicon (.tagged label name) .quiet).log = {} := by
  simp [Builder.ofLexicon, Lexicon.labels, Lexicon.nodes, Lexicon.tagged, Lexicon.tagged.letter,
    Regex.nodes, Regex.walk, Regex.Located.children, Regex.children, Lexicon.addLabel, Regex.tag,
    Lexicon.stateNames, Lexicon.addName, Options.quiet, Log.pushAll]

/-- A letter of the sample is resolved without findings. -/
theorem resolve_letter (k : Scope) (hcase : k.ignoreCase = false) {c : Char}
    (hc : c = 'a' ∨ c = 'b') (opened : List String) (site : Site) (tag : Tag) :
    (Regex.resolve k opened site (.chars tag false [(c, c)])).2 = [] := by
  have hset : (k.classSet false [(c, c)]).isEmpty = false := by
    simp only [Scope.classSet, hcase]
    rcases hc with rfl | rfl
    · cbv
    · cbv
  simp [Regex.resolve, hset, invalidRanges]

/-- Nothing is wrong with the rules, whatever the names are. -/
theorem clean_tagged : ∀ state ∈ (Lexicon.tagged label name).states,
    ∀ r ∈ Builder.rulesOf (Builder.ofLexicon (.tagged label name) .quiet).env 0 state,
      r.issues = [] ∧ r.findings = [] := by
  obtain ⟨henv, -⟩ := environment_tagged label name
  generalize (Builder.ofLexicon (.tagged label name) .quiet).env = env at henv
  have hlabel : env.labels[label]? = some ⟨⟨0, 0, []⟩, Lexicon.tagged.letter label⟩ := by
    simp [henv]
  have hname : env.stateIds[name]? = some 0 := by simp [henv]
  have hpair : ∀ site, (Regex.resolve ⟨env.labels, env.limit, false⟩ [] site
      (.seq {} [.ref {} label, .chars {} false [('b', 'b')]])).2 = [] := by
    intro site
    rw [Regex.resolve, Regex.resolveAll, Regex.resolve_ref_of_some (by simp [Tag.open]) hlabel]
    simp [Lexicon.tagged.letter, Regex.resolveAll, resolve_letter]
  have hletter : ∀ site, (Regex.resolve ⟨env.labels, env.limit, false⟩ [] site
      (.chars { label := some label } false [('a', 'a')])).2 = [] := fun site =>
    resolve_letter _ rfl (.inl rfl) _ _ _
  simp [Lexicon.tagged, Builder.rulesOf, resolveRules, resolveRule, ordinalIssues, resolveNext,
    hname, hletter, hpair, Lexicon.tagged.letter, Regex.isEof, Regex.tag, eofKind]

/-- The lexicon compiles under any two names. -/
theorem exists_compile_tagged : ∃ k, compile (.tagged label name) .quiet = .ok k := by
  obtain ⟨-, hempty⟩ := environment_tagged label name
  have hrules := Builder.foldl_reportRule_of_clean
    (clean_tagged label name _ List.mem_cons_self)
  have hlog : ((Builder.ofLexicon (.tagged label name) .quiet).addStates
      (Lexicon.tagged label name).states.zipIdx).log = {} := by
    rw [← hempty]
    exact congrArg Prod.fst (hrules _)
  have hautomaton : (Automaton.ofLexicon (.tagged label name) .quiet).2.hasNoErrors = true := by
    show (Log.push (Log.append {} (Builder.addStates _ _).log) (.note _)).hasNoErrors = true
    rw [hlog]
    exact Log.hasNoErrors_push.2 ⟨rfl, rfl⟩
  exact exists_compile rfl hautomaton rfl

end Tagged

/-- The sources of a sample lexicon under two pairs of names. -/
theorem source_rename_tagged : ∃ k k', compile (.tagged "word" "main") .quiet = .ok k ∧
    compile (.tagged "letter" "start") .quiet = .ok k' ∧
    (Lexicon.tagged "letter" "start").states =
      (Lexicon.tagged "word" "main").states.map
        (LexState.rename (fun _ => "letter") fun _ => "start") ∧
    (Lexicon.tagged "word" "main").Unbroken ∧ (Lexicon.tagged "letter" "start").Unbroken ∧
    k.source 4 = Emit.preamble [] 4 ++ k.moduleText 4 ∧
    k'.source 4 = Emit.preamble [] 4 ++ k'.moduleText 4 ∧
    k'.sourceLines.map (bare 4) = k.sourceLines.map (bare 4) ∧
    dropComments false (k'.moduleText 4).toList = dropComments false (k.moduleText 4).toList := by
  obtain ⟨k, hk⟩ := exists_compile_tagged "word" "main"
  obtain ⟨k', hk'⟩ := exists_compile_tagged "letter" "start"
  have hstates : (Lexicon.tagged "letter" "start").states =
      (Lexicon.tagged "word" "main").states.map
        (LexState.rename (fun _ => "letter") fun _ => "start") := rfl
  have hunbroken : (Lexicon.tagged "word" "main").Unbroken := ⟨by decide, by decide⟩
  have hunbroken' : (Lexicon.tagged "letter" "start").Unbroken := ⟨by decide, by decide⟩
  obtain ⟨hsource, hsource', hcode, htext⟩ := source_rename hstates rfl hk hk' 4
  exact ⟨k, k', hk, hk', hstates, hunbroken, hunbroken', hsource, hsource', hcode,
    htext hunbroken hunbroken'⟩

/-- A label with a line break ends the comment that it stands in: the sources differ in more than
their comments, although nothing but a label was renamed. -/
theorem spilled_name : ∃ k k', compile (.tagged "AB" "main") .quiet = .ok k ∧
    compile (.tagged "A\nB" "main") .quiet = .ok k' ∧
    (Lexicon.tagged "A\nB" "main").states =
      (Lexicon.tagged "AB" "main").states.map (LexState.rename (fun _ => "A\nB") id) ∧
    dropComments false (k'.source 0).toList ≠ dropComments false (k.source 0).toList := by
  obtain ⟨k, hk⟩ := exists_compile_tagged "AB" "main"
  obtain ⟨k', hk'⟩ := exists_compile_tagged "A\nB" "main"
  have hstates : (Lexicon.tagged "A\nB" "main").states =
      (Lexicon.tagged "AB" "main").states.map (LexState.rename (fun _ => "A\nB") id) := rfl
  refine ⟨k, k', hk, hk', hstates, ?_⟩
  have hunbroken : (Lexicon.tagged "AB" "main").Unbroken := ⟨by decide, by decide⟩
  have hrule : (0, { ordinal := 0, kind := 1, regex := Lexicon.tagged.letter "A\nB" }) ∈
      (Lexicon.tagged "A\nB" "main").numbered := List.mem_cons_self
  have hne := dropComments_rename_ne hstates hk hk' hunbroken hrule (by decide) 0
  rw [Compilation.source_eq, Compilation.source_eq, options_of_compile hk, options_of_compile hk']
  simpa [Emit.preamble, Options.quiet] using hne

end Lexwright

import Lexwright.Automaton.Builder
import Lexwright.Automaton.Diagnostics
import Lexwright.Automaton.Rows
import Lexwright.CharClass.Compiler
import Lexwright.Tables

/-!
# `Lexwright.Compile`: from a lexicon to tables

A lexicon becomes an automaton, and the automaton becomes tables. Neither stage is begun when the
log before it has errors.

* `ClassPool`: the classes of the moves of an automaton.
* `Compilation`: the tables of an automaton, with what is needed to print them.
* `BuildError`: why a lexicon was not compiled.
* `compile`: both stages.
-/

set_option autoImplicit false

namespace Lexwright

/-- The classes of some sets of characters: the number of the class of each set, and for each
class the set that it was first met as. -/
structure ClassPool where
  compiler : ClassCompiler := default
  names : Array String := #[]
  ids : Array Nat := #[]
deriving Inhabited

/-- Adds the class of one more set. -/
def ClassPool.add (p : ClassPool) (set : Segments) : ClassPool :=
  let (compiler, id) := p.compiler.internClass set
  let names := if id = p.names.size then p.names.push set.display else p.names
  { compiler, names, ids := p.ids.push id }

/-- The stages of the compiler, in order. -/
inductive Stage where
  | lexicon
  | automaton
  | tables
deriving DecidableEq, Repr

/-- Name of the stage in messages. -/
def Stage.display : Stage → String
  | lexicon => "Lexicon"
  | automaton => "NfaBuilder"
  | tables => "LexerGen"

/-- The stage that failed, with all the messages up to there. A failure is internal if it is no
fault of the lexicon. -/
structure BuildError where
  stage : Stage
  internal : Bool := false
  log : Log
deriving DecidableEq, Repr

/-- The stage and the messages. -/
def BuildError.display (e : BuildError) : String :=
  let opening := if e.internal then "Internal error" else "Errors have occurred"
  s!"{opening} in {e.stage.display}:\n{e.log.display}\n"

/-- What the compiler makes of an automaton. There are tables only if the log has no errors. -/
structure Compilation where
  options : Options
  log : Log
  /-- Whether the compiler failed through no fault of the lexicon. -/
  internalError : Bool := false
  tables : Tables := {}
  rows : Rows := {}
  ruleNames : Array String := #[]
  stateNames : Array String := #[]
  classNames : Array String := #[]
deriving Inhabited

namespace Compilation

/-- Whether there are tables. -/
def hasTables (c : Compilation) : Bool := !c.tables.transitions.isEmpty

/-- A failure that is no fault of the lexicon. -/
def fail (options : Options) (log : Log) (conflict : Conflict) : Compilation where
  options
  log := log.push (.error s!"internal error: {conflict.text}")
  internalError := true

/-- The sets of the moves that lead to a row, without repetition, in the order of the states. -/
def moveSets (a : Automaton) (rows : Rows) : Interner Segments :=
  (List.zip a.states.toList rows.nextRows.toList).foldl
    (fun sets s =>
      match s.1.move, s.2 with
      | some (set, _), some _ => (sets.intern set).1
      | _, _ => sets)
    .empty

/-- The moves that lead to a row, with the classes of their sets. -/
def transitions (a : Automaton) (rows : Rows) (sets : Interner Segments) (ids : Array Nat) :
    Array (Option Transition) :=
  a.states.zipWith
    (fun state nextRow =>
      match state.move, nextRow with
      | some (set, _), some row => some ⟨((sets.id? set).bind (ids[·]?)).getD 0, row⟩
      | _, _ => none)
    rows.nextRows

/-- The tables of an automaton whose rows are known. -/
def ofRows (options : Options) (log : Log) (a : Automaton) (rows : Rows) : Compilation :=
  -- a set is compiled once, however many moves have it
  let sets := moveSets a rows
  let pool := sets.items.foldl ClassPool.add {}
  let members := rows.rows.toList.map SortedSet.toList
  let tables : Tables :=
    { terminals := a.rules.map fun r => ⟨r.kind, r.category, r.nextState⟩
      lexStates := a.lexStates.mapIdx fun i s =>
        ⟨(rows.lexStates[i]?.join).map Prod.fst, s.eofRule⟩
      rows := (Tables.rowBounds 0 (members.map List.length)).toArray
      rowMembers := members.flatten.toArray
      rowRules := rows.rules
      transitions := transitions a rows sets pool.ids
      classes := pool.compiler.classes.items
      classTables := pool.compiler.tables }
  let note := s!"tables: {tables.rows.size} rows, {tables.classes.size} classes, " ++
    s!"{tables.classTables.pages.size} bit vector table(s)"
  { options, log := log.push (.note note), tables, rows
    ruleNames := a.rules.map (·.name)
    stateNames := a.lexStates.map (·.name)
    classNames := pool.names }

/-- The tables of an automaton, after the log of what came before it. -/
def ofAutomaton (options : Options) (a : Automaton) (log : Log) : Compilation :=
  if log.hasNoErrors then
    let e := Engine.ofAutomaton a
    match Rows.ofEngine e with
    | .error conflict => fail options log conflict
    | .ok rows =>
      let log := log.pushAll e.emptyMatches
      if options.warnUnreachable then
        match e.unmatched options.maxStateSets log with
        | (log, some conflict) => fail options log conflict
        | (log, none) => ofRows options log a rows
      else ofRows options log a rows
  else { options, log }

/-- Why there are no tables. -/
def buildError (c : Compilation) : BuildError := ⟨.tables, c.internalError, c.log⟩

/-- The compilation, if its log has no errors. -/
def checked (c : Compilation) : Except BuildError Compilation :=
  if c.log.hasNoErrors then .ok c else .error c.buildError

end Compilation

/-- The automaton of a lexicon, if neither has errors. -/
def Automaton.ofLexicon? (lexicon : Lexicon) (options : Options) :
    Except BuildError (Automaton × Log) :=
  if lexicon.log.hasNoErrors then
    let (a, log) := Automaton.ofLexicon lexicon options
    if log.hasNoErrors then .ok (a, log) else .error ⟨.automaton, false, log⟩
  else .error ⟨.lexicon, false, lexicon.log⟩

/-- The tables of an automaton, if neither has errors. -/
def Compilation.ofAutomaton? (options : Options) (a : Automaton) (log : Log) :
    Except BuildError Compilation :=
  if log.hasNoErrors then (ofAutomaton options a log).checked
  else .error ⟨.automaton, false, log⟩

/-- The tables of a lexicon, or the first stage that has errors. -/
def compile (lexicon : Lexicon) (options : Options) : Except BuildError Compilation := do
  let (a, log) ← Automaton.ofLexicon? lexicon options
  Compilation.ofAutomaton? options a log

end Lexwright

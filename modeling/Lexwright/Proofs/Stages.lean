import Lexwright.Proofs.Diagnostics
import Lexwright.Stages

/-!
# `Lexwright.Proofs.Stages`: no error passes a stage, and no message is lost

The gates between the stages read numbers of messages, and logs move from stage to stage.

* `Automaton.extends_ofLexicon`, `Compilation.extends_ofAutomaton`: what a stage makes has the
  messages that the stage was given, and then some more.
* `compile_eq_ite`: the stages as one equation.
* `gate_exact`: which lexicons compile, which messages there are then, and the same for the
  conversion stage by stage.
-/

set_option autoImplicit false

namespace Lexwright

variable {lexicon : Lexicon} {options : Options} {a : Automaton}

/-! ### What a stage adds to the log -/

namespace Builder

variable {b : Builder} {found : Log × Std.HashSet (Site × Issue)}

/-- Reporting a finding only adds to the log. -/
theorem extends_reportFinding (found : Log × Std.HashSet (Site × Issue)) (f : Finding) :
    found.1.Extends (reportFinding found f).1 := by
  unfold reportFinding
  split
  · exact .refl found.1
  · exact .push found.1 _

/-- Reporting any findings only adds to the log. -/
theorem extends_foldl_reportFinding (found : Log × Std.HashSet (Site × Issue))
    (fs : List Finding) : found.1.Extends (fs.foldl reportFinding found).1 := by
  induction fs generalizing found with
  | nil => exact .refl found.1
  | cons f fs ih => exact (extends_reportFinding found f).trans (ih _)

/-- Reporting what was found in some rules only adds to the log. -/
theorem extends_foldl_reportRule (found : Log × Std.HashSet (Site × Issue))
    (rs : List ResolvedRule) : found.1.Extends (rs.foldl reportRule found).1 := by
  induction rs generalizing found with
  | nil => exact .refl found.1
  | cons r rs ih =>
    have hrule : found.1.Extends (reportRule found r).1 :=
      (Log.Extends.pushAll found.1 _).trans (extends_foldl_reportFinding _ r.findings)
    exact hrule.trans (ih _)

/-- Adding lexical states only adds to the log. -/
theorem extends_addStates (b : Builder) (states : List (LexState × Nat)) :
    b.log.Extends (b.addStates states).log := by
  induction states generalizing b with
  | nil => exact .refl b.log
  | cons s states ih =>
    have hstate : b.log.Extends (b.addState s.2 s.1).1.log :=
      extends_foldl_reportRule (b.log, b.reported) _
    exact hstate.trans (ih _)

end Builder

/-- The log of an automaton begins with that of its lexicon. -/
theorem Automaton.extends_ofLexicon (lexicon : Lexicon) (options : Options) :
    lexicon.log.Extends (ofLexicon lexicon options).2 := by
  have hpush (log : Log) (m : Message) : log.Extends (log.push m) := .push log m
  unfold ofLexicon
  simp only
  split
  · exact hpush lexicon.log (Issue.noStates.message none)
  · split
    · exact hpush lexicon.log ((Issue.tooManyStates lexicon.states.length).message none)
    · have hbuilder : ({} : Log).Extends (Builder.ofLexicon lexicon options).log := .pushAll {} _
      have hstates := hbuilder.trans (Builder.extends_addStates _ lexicon.states.zipIdx)
      simp only
      exact (hstates.append lexicon.log).trans (hpush _ _)

/-- The search for unmatched rules only adds to the log, by induction on the lexical states. -/
theorem Engine.extends_unmatchedFrom (e : Engine) (limit i : Nat) (log : Log)
    (infos : List LexStateInfo) : log.Extends (e.unmatchedFrom limit i log infos).1 := by
  induction infos generalizing i log with
  | nil => exact .refl log
  | cons info infos ih =>
    unfold unmatchedFrom
    split
    · exact .refl log
    · exact (Log.Extends.pushAll log _).trans (ih _ _)

/-- The same from the first lexical state on. -/
theorem Engine.extends_unmatched (e : Engine) (limit : Nat) (log : Log) :
    log.Extends (e.unmatched limit log).1 := by
  unfold unmatched
  split
  · exact .refl log
  · exact e.extends_unmatchedFrom limit 0 log _

namespace Compilation

/-- A failure only adds to the log. -/
theorem extends_fail (options : Options) (log : Log) (conflict : Conflict) :
    log.Extends (fail options log conflict).log :=
  .push log (.error s!"internal error: {conflict.text}")

/-- Making tables only adds to the log. -/
theorem extends_ofRows (options : Options) (log : Log) (a : Automaton) (rows : Rows) :
    log.Extends (ofRows options log a rows).log := by
  simp only [ofRows]
  exact .push log _

/-- The log of tables begins with that of their automaton. -/
theorem extends_ofAutomaton (options : Options) (a : Automaton) (log : Log) :
    log.Extends (ofAutomaton options a log).log := by
  unfold ofAutomaton
  split
  · simp only
    split
    · exact extends_fail options log _
    · have hempty := Log.Extends.pushAll log (Engine.ofAutomaton a).emptyMatches
      have hunmatched := hempty.trans
        ((Engine.ofAutomaton a).extends_unmatched options.maxStateSets _)
      split
      · split
        · rename_i later conflict h
          rw [h] at hunmatched
          exact hunmatched.trans (extends_fail options later conflict)
        · rename_i later h
          rw [h] at hunmatched
          exact hunmatched.trans (extends_ofRows options later a _)
      · exact hempty.trans (extends_ofRows options _ a _)
  · exact .refl log

/-- Nothing is made of an automaton that comes with errors, and its log is kept. -/
theorem ofAutomaton_of_errors {log : Log} (h : ¬log.hasNoErrors = true) (options : Options)
    (a : Automaton) : ofAutomaton options a log = { options, log } := by
  unfold ofAutomaton
  rw [if_neg h]

end Compilation

/-! ### All the stages -/

/-- The log at the end, with or without tables. -/
def lastLog (result : Except BuildError Compilation) : Log :=
  match result with
  | .ok k => k.log
  | .error e => e.log

/-- The stages one after another: an error keeps the next stage from being begun, and the last stage
adds none. -/
theorem compile_eq_ite (lexicon : Lexicon) (options : Options) :
    compile lexicon options =
      if lexicon.log.hasNoErrors then
        if (Automaton.ofLexicon lexicon options).2.hasNoErrors then
          .ok (.ofAutomaton options (Automaton.ofLexicon lexicon options).1
            (Automaton.ofLexicon lexicon options).2)
        else .error ⟨.automaton, false, (Automaton.ofLexicon lexicon options).2⟩
      else .error ⟨.lexicon, false, lexicon.log⟩ := by
  by_cases hlexicon : lexicon.log.hasNoErrors = true
  · by_cases hautomaton : (Automaton.ofLexicon lexicon options).2.hasNoErrors = true
    · rw [if_pos hlexicon, if_pos hautomaton]
      exact compile_of_hasNoErrors
        (Automaton.builtCleanly_of_hasNoErrors hlexicon hautomaton) hautomaton
    · rw [if_pos hlexicon, if_neg hautomaton]
      unfold compile Automaton.ofLexicon?
      simp only [if_pos hlexicon, if_neg hautomaton]
      rfl
  · rw [if_neg hlexicon]
    exact compile_of_errors hlexicon options

/-- The last log begins with that of the lexicon. -/
theorem extends_compile (lexicon : Lexicon) (options : Options) :
    lexicon.log.Extends (lastLog (compile lexicon options)) := by
  have hautomaton := Automaton.extends_ofLexicon lexicon options
  rw [compile_eq_ite]
  split
  · split
    · exact hautomaton.trans (Compilation.extends_ofAutomaton options _ _)
    · exact hautomaton
  · exact .refl lexicon.log

/-- The automaton of a lexicon, as a stage that is not begun when there are errors. -/
theorem tryBuild_ofLexicon (lexicon : Lexicon) (options : Options) :
    tryBuild (fun l => Automaton.ofLexicon l options) lexicon =
      Automaton.ofLexicon? lexicon options := rfl

/-- The log of what was compiled has no errors. -/
theorem hasNoErrors_log_of_compile {k : Compilation} (h : compile lexicon options = .ok k) :
    k.log.hasNoErrors = true := by
  obtain ⟨-, hautomaton⟩ := hasNoErrors_of_compile h
  have hbuilt := builtCleanly_of_compile h
  rw [compile_of_hasNoErrors hbuilt hautomaton] at h
  cases h
  obtain ⟨-, -, hlog, -⟩ := Compilation.ofAutomaton_total (Automaton.implements_ofLexicon hbuilt)
    (Automaton.ofLexicon lexicon options).2 options options
  exact hlog.trans hautomaton

/-- Converted stage by stage, a lexicon has the tables or the error that it has when it is compiled
with default options. -/
theorem Lexicon.toTables?_eq (lexicon : Lexicon) :
    lexicon.toTables? = (compile lexicon {}).map Compilation.tables := by
  have hchain : lexicon.toTables? = compile lexicon {} >>= Compilation.toTables? := by
    unfold toTables? compile
    rw [tryBuild_ofLexicon, bind_assoc]
    rfl
  rw [hchain]
  cases hk : compile lexicon {} with
  | error e => rfl
  | ok k =>
    show k.toTables? = .ok k.tables
    unfold Compilation.toTables?
    rw [if_pos (hasNoErrors_log_of_compile hk)]

/-- A lexicon compiles if and only if neither its log nor that of its automaton has an error. The
last log begins with the messages of the lexicon, and its numbers are those of its messages. The
error is that of the first stage whose log has one, and is the fault of the lexicon. Of an automaton
that comes with errors no tables are made, and asking for them gives its log back. The conversion
stage by stage has the same tables, or the same error. -/
theorem gate_exact (hlog : lexicon.log.Built) (options : Options) :
    ((∃ k, compile lexicon options = .ok k) ↔
      lexicon.log.Clean ∧ (Automaton.ofLexicon lexicon options).2.Clean) ∧
    (lexicon.log.messages.toList <+: (lastLog (compile lexicon options)).messages.toList ∧
      (lastLog (compile lexicon options)).Counted) ∧
    ((¬lexicon.log.Clean → compile lexicon options = .error ⟨.lexicon, false, lexicon.log⟩) ∧
      (lexicon.log.Clean → ¬(Automaton.ofLexicon lexicon options).2.Clean →
        compile lexicon options =
          .error ⟨.automaton, false, (Automaton.ofLexicon lexicon options).2⟩)) ∧
    (∀ (a : Automaton) (log : Log), log.Built → ¬log.Clean →
      let k := Compilation.ofAutomaton options a log
      k.tables = {} ∧ k.hasTables = false ∧ k.toTables? = .error ⟨.tables, false, log⟩) ∧
    lexicon.toTables? = (compile lexicon {}).map Compilation.tables := by
  have hcounted := hlog.counted
  have hautomaton := (Automaton.extends_ofLexicon lexicon options).counted hcounted
  have hextends := extends_compile lexicon options
  refine ⟨?_, ⟨hextends.messages_prefix, hextends.counted hcounted⟩, ⟨?_, ?_⟩, ?_,
    lexicon.toTables?_eq⟩
  · -- The gates look at the counters, which count the messages.
    rw [← hcounted.hasNoErrors_iff, ← hautomaton.hasNoErrors_iff]
    constructor
    · intro ⟨k, hk⟩
      exact hasNoErrors_of_compile hk
    · intro ⟨hlexicon, hclean⟩
      rw [compile_eq_ite, if_pos hlexicon, if_pos hclean]
      exact ⟨_, rfl⟩
  · intro herror
    rw [← hcounted.hasNoErrors_iff] at herror
    rw [compile_eq_ite, if_neg herror]
  · intro hlexicon herror
    rw [← hcounted.hasNoErrors_iff] at hlexicon
    rw [← hautomaton.hasNoErrors_iff] at herror
    rw [compile_eq_ite, if_pos hlexicon, if_neg herror]
  · intro a log hbuilt herror k
    rw [← hbuilt.counted.hasNoErrors_iff] at herror
    have hk : k = { options, log } := Compilation.ofAutomaton_of_errors herror options a
    rw [hk]
    unfold Compilation.toTables?
    rw [if_neg herror]
    exact ⟨rfl, rfl, rfl⟩

/-- The sample lexicon compiles. It does not when it comes with an error, and the error is kept. -/
theorem gate_exact_words : Lexicon.words.log.Built ∧
    (∃ k, compile Lexicon.words Options.quiet = .ok k) ∧
    let failing := { Lexicon.words with log := ({} : Log).push (.error "no source") }
    failing.log.Built ∧
      compile failing Options.quiet = .error ⟨.lexicon, false, failing.log⟩ ∧
      failing.toTables? = (compile failing {}).map Compilation.tables := by
  have hwords : Lexicon.words.log.Built := .empty
  have hextends := Automaton.extends_ofLexicon Lexicon.words Options.quiet
  have hautomaton := hextends.counted hwords.counted
  obtain ⟨hcompiles, -⟩ := gate_exact hwords Options.quiet
  refine ⟨hwords, hcompiles.2 ⟨?_, hautomaton.hasNoErrors_iff.1 hasNoErrors_words⟩, ?_⟩
  · exact hwords.counted.hasNoErrors_iff.1 rfl
  · intro failing
    have hfailing : failing.log.Built := .push .empty (.error "no source")
    obtain ⟨-, -, ⟨hfirst, -⟩, -, hchain⟩ := gate_exact hfailing Options.quiet
    refine ⟨hfailing, hfirst ?_, hchain⟩
    rw [← hfailing.counted.hasNoErrors_iff]
    exact Bool.false_ne_true

end Lexwright

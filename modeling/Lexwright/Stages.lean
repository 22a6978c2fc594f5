import Lexwright.Compile

/-!
# `Lexwright.Stages`: stages that carry their log

What a stage makes holds the messages of all the stages up to there, so one conversion serves every
two stages: it is not begun when there are errors before it, and what it makes is not handed out
when there are errors behind it.

* `Staged`: what a stage makes.
* `tryBuild`: a stage, if there are no errors.
* `Compilation.toTables?`: the tables alone, which hold no log.
* `Lexicon.toTables?`: all the stages with default options, one after another.
-/

set_option autoImplicit false

namespace Lexwright

/-- What a stage of the compiler makes, with the messages up to there. -/
class Staged (α : Type) where
  stage : Stage
  log : α → Log
  /-- Whether the stage failed through no fault of the lexicon. -/
  internalError : α → Bool := fun _ => false

instance : Staged Lexicon where
  stage := .lexicon
  log := Lexicon.log

instance : Staged (Automaton × Log) where
  stage := .automaton
  log := Prod.snd

instance : Staged Compilation where
  stage := .tables
  log := Compilation.log
  internalError := Compilation.internalError

/-- The next stage, if there are errors neither before nor behind it. -/
def tryBuild {α β : Type} [Staged α] [Staged β] (build : α → β) (source : α) :
    Except BuildError β :=
  if (Staged.log source).hasNoErrors then
    let target := build source
    if (Staged.log target).hasNoErrors then .ok target
    else .error ⟨Staged.stage β, Staged.internalError target, Staged.log target⟩
  else .error ⟨Staged.stage α, false, Staged.log source⟩

/-- The tables of a compilation, if its log has no errors. -/
def Compilation.toTables? (c : Compilation) : Except BuildError Tables :=
  if c.log.hasNoErrors then .ok c.tables else .error c.buildError

/-- The tables of a lexicon, converted stage by stage with default options. -/
def Lexicon.toTables? (lexicon : Lexicon) : Except BuildError Tables := do
  let (a, log) ← tryBuild (fun l => Automaton.ofLexicon l {}) lexicon
  let c ← tryBuild (fun (s : Automaton × Log) => Compilation.ofAutomaton {} s.1 s.2) (a, log)
  c.toTables?

end Lexwright

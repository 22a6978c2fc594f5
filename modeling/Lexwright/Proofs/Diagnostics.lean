import Lexwright.Proofs.Automaton.Unmatched
import Lexwright.Proofs.Compile

/-!
# `Lexwright.Proofs.Diagnostics`: what is reported does not matter for the tables

Behind an automaton that was built cleanly nothing can fail: its rows are found without a conflict,
and so are the rules that never match, since every set of states that is met lies in one lexical
state. What is found there are warnings, which do not keep tables from being built.

* `Engine.exists_warnings`: the search for rules that never match adds warnings, and nothing else.
* `Compilation.exists_ofRows`: what the compiler makes of a clean automaton, whatever the options.
* `tables_compile_congr`: the tables of a lexicon with other options.
* `diagnostics_inert`: no internal error, and the same tables whatever is searched and reported.
-/

set_option autoImplicit false

namespace Lexwright

open Automaton (BuiltCleanly implements_ofLexicon)

variable {a : Automaton} {lexicon : Lexicon} {options options' : Options} {log : Log}

/-! ### The automaton and its log -/

/-- Of the options only the bound of repetitions matters for the automaton. -/
theorem ofLexicon_congr (h : options'.maxRepetition = options.maxRepetition) :
    Automaton.ofLexicon lexicon options' = Automaton.ofLexicon lexicon options := by
  unfold Automaton.ofLexicon Builder.ofLexicon
  rw [h]

/-- Of the options, only the bound of repetitions matters for the automaton. -/
theorem builtCleanly_congr (h : BuiltCleanly lexicon options)
    (hmax : options'.maxRepetition = options.maxRepetition) : BuiltCleanly lexicon options' := by
  unfold Automaton.BuiltCleanly
  rw [ofLexicon_congr hmax]
  exact h

/-- The log of an automaton that was built cleanly has the errors of its lexicon. -/
theorem hasNoErrors_ofLexicon (h : BuiltCleanly lexicon options) :
    (Automaton.ofLexicon lexicon options).2.hasNoErrors = lexicon.log.hasNoErrors := by
  have herrors : (Automaton.ofLexicon lexicon options).2.tally.errors =
      lexicon.log.tally.errors := h
  unfold Log.hasNoErrors
  rw [herrors]

/-! ### Warnings -/

namespace Engine

/-- Every message about rules that never match is a warning. -/
theorem error?_of_warns {sets : Set StateSet} {limit i : Nat} {state : LexState}
    {messages : List Message} (h : lexicon.Warns sets limit i state messages) :
    ∀ m ∈ messages, m.error? = none := by
  intro m hm
  cases h with
  | stopped =>
    rw [List.mem_singleton.1 hm]
    exact Issue.error?_message.2 rfl
  | searched =>
    obtain ⟨x, -, rfl⟩ := List.mem_map.1 hm
    exact Issue.error?_message.2 rfl

/-- The search for rules that never match adds warnings, and meets no conflict. -/
theorem exists_warnings (h : a.Implements lexicon) (limit : Nat) (log : Log) :
    ∃ warnings : List Message, (∀ m ∈ warnings, m.error? = none) ∧
      (ofAutomaton a).unmatched limit log = (log.pushAll warnings, none) := by
  by_cases hlimit : limit = 0
  · refine ⟨[], fun m hm => absurd hm List.not_mem_nil, ?_⟩
    unfold unmatched
    rw [if_pos hlimit]
    rfl
  · obtain ⟨warnings, hlength, hunmatched, hwarns⟩ :=
      exists_unmatched h (Nat.pos_of_ne_zero hlimit) log
    refine ⟨warnings.flatten, fun m hm => ?_, hunmatched⟩
    obtain ⟨messages, hmessages, hm⟩ := List.mem_flatten.1 hm
    obtain ⟨i, hi⟩ := List.getElem?_of_mem hmessages
    have hlt : i < lexicon.states.length := by
      rw [← hlength]
      exact (List.getElem?_eq_some_iff.1 hi).1
    exact error?_of_warns (hwarns i _ messages (List.getElem?_eq_getElem hlt) hi) m hm

end Engine

/-! ### Tables -/

namespace Compilation

/-- Without errors before it the compiler lays out the rows of the automaton. Options have a say in
the messages only. -/
theorem exists_ofRows (h : a.Implements lexicon) (hlog : log.hasNoErrors = true)
    (options : Options) :
    ∃ rows later, Rows.ofEngine (Engine.ofAutomaton a) = .ok rows ∧ rows.Serves a ∧
      later.hasNoErrors = true ∧ ofAutomaton options a log = ofRows options later a rows := by
  obtain ⟨rows, hrows, hserves⟩ := Rows.serves_ofEngine h
  have hempty : (log.pushAll (Engine.ofAutomaton a).emptyMatches).hasNoErrors = true :=
    Log.hasNoErrors_pushAll.2 ⟨hlog, error?_emptyMatches _⟩
  unfold ofAutomaton
  rw [if_pos hlog]
  simp only [hrows]
  by_cases hwarn : options.warnUnreachable = true
  · obtain ⟨warnings, hwarnings, hunmatched⟩ := Engine.exists_warnings h options.maxStateSets
      (log.pushAll (Engine.ofAutomaton a).emptyMatches)
    rw [if_pos hwarn, hunmatched]
    exact ⟨rows, _, rfl, hserves, Log.hasNoErrors_pushAll.2 ⟨hempty, hwarnings⟩, rfl⟩
  · rw [if_neg hwarn]
    exact ⟨rows, _, rfl, hserves, hempty, rfl⟩

variable {rows : Rows}

/-- The log of the tables gets a note at the end. -/
theorem hasNoErrors_ofRows (hlog : log.hasNoErrors = true) :
    (ofRows options log a rows).log.hasNoErrors = true := Log.hasNoErrors_push.2 ⟨hlog, rfl⟩

/-- There are tables, since there is a state: the start of the first lexical state. -/
theorem hasTables_ofRows (h : a.Implements lexicon) (hrows : rows.Serves a) :
    (ofRows options log a rows).hasTables = true := by
  have hpos : 0 < a.lexStates.size := Nat.lt_of_lt_of_eq h.nonempty h.stateCount.symm
  obtain ⟨⟨state, hstate, -⟩, -⟩ := h.start (Array.getElem?_eq_getElem hpos)
  have hlt := (Array.getElem?_eq_some_iff.1 hstate).1
  unfold hasTables
  rw [Bool.not_eq_true', Array.isEmpty_eq_false_iff, ← Array.size_pos_iff,
    size_transitions_ofRows hrows]
  exact Nat.lt_of_le_of_lt (Nat.zero_le _) hlt

/-- The compiler fails through no fault of its own, and builds the same tables whatever the options
are. It builds them if there are no errors before it. -/
theorem ofAutomaton_total (h : a.Implements lexicon) (log : Log) (options options' : Options) :
    (ofAutomaton options' a log).internalError = false ∧
      (ofAutomaton options' a log).hasTables = log.hasNoErrors ∧
      (ofAutomaton options' a log).log.hasNoErrors = log.hasNoErrors ∧
      (ofAutomaton options' a log).tables = (ofAutomaton options a log).tables := by
  by_cases hlog : log.hasNoErrors = true
  · obtain ⟨rows, later, hrows, hserves, -, heq⟩ := exists_ofRows h hlog options
    obtain ⟨rows', later', hrows', -, hlater', heq'⟩ := exists_ofRows h hlog options'
    rw [hrows] at hrows'
    cases hrows'
    rw [heq, heq', hlog]
    exact ⟨rfl, hasTables_ofRows h hserves, hasNoErrors_ofRows hlater', rfl⟩
  · unfold ofAutomaton
    rw [if_neg hlog, if_neg hlog]
    exact ⟨rfl, (Bool.eq_false_iff.2 hlog).symm, rfl, rfl⟩

end Compilation

/-- A lexicon compiles if the log of its automaton has no errors. -/
theorem compile_of_hasNoErrors (h : BuiltCleanly lexicon options)
    (hlog : (Automaton.ofLexicon lexicon options).2.hasNoErrors = true) :
    compile lexicon options = .ok (.ofAutomaton options (Automaton.ofLexicon lexicon options).1
      (Automaton.ofLexicon lexicon options).2) := by
  obtain ⟨-, -, hlater, -⟩ := Compilation.ofAutomaton_total (implements_ofLexicon h)
    (Automaton.ofLexicon lexicon options).2 options options
  rw [compile_eq ((hasNoErrors_ofLexicon h).symm.trans hlog) hlog]
  unfold Compilation.checked
  rw [if_pos (hlater.trans hlog)]

/-- Nothing is begun if the lexicon came with errors. -/
theorem compile_of_errors (h : ¬lexicon.log.hasNoErrors = true) (options : Options) :
    compile lexicon options = .error ⟨.lexicon, false, lexicon.log⟩ := by
  unfold compile Automaton.ofLexicon?
  rw [if_neg h]
  rfl

/-- Of the options only the bound of repetitions matters for the tables. -/
theorem tables_compile_congr (h : BuiltCleanly lexicon options)
    (hmax : options'.maxRepetition = options.maxRepetition) :
    (compile lexicon options').map Compilation.tables =
      (compile lexicon options).map Compilation.tables := by
  have heq : Automaton.ofLexicon lexicon options' = Automaton.ofLexicon lexicon options :=
    ofLexicon_congr hmax
  by_cases hlog : (Automaton.ofLexicon lexicon options).2.hasNoErrors = true
  · have hlog' : (Automaton.ofLexicon lexicon options').2.hasNoErrors = true := by
      rw [heq]
      exact hlog
    obtain ⟨-, -, -, htables⟩ := Compilation.ofAutomaton_total (implements_ofLexicon h)
      (Automaton.ofLexicon lexicon options).2 options options'
    rw [compile_of_hasNoErrors h hlog, compile_of_hasNoErrors (builtCleanly_congr h hmax) hlog',
      heq]
    exact congrArg Except.ok htables
  · rw [hasNoErrors_ofLexicon h] at hlog
    rw [compile_of_errors hlog, compile_of_errors hlog]

/-- Behind an automaton that was built cleanly no conflict is met, whatever is searched, and there
is no internal error. Tables are built unless the lexicon came with errors, and they depend on no
option but the bound of repetitions. -/
theorem diagnostics_inert (h : BuiltCleanly lexicon options) :
    (∃ rows, Rows.ofEngine (Engine.ofAutomaton (Automaton.ofLexicon lexicon options).1) =
      .ok rows) ∧
    (∀ limit log, ((Engine.ofAutomaton (Automaton.ofLexicon lexicon options).1).unmatched
      limit log).2 = none) ∧
    (∀ options' k, k = Compilation.ofAutomaton options' (Automaton.ofLexicon lexicon options).1
        (Automaton.ofLexicon lexicon options).2 →
      k.internalError = false ∧
      k.hasTables = (Automaton.ofLexicon lexicon options).2.hasNoErrors ∧
      k.log.hasNoErrors = (Automaton.ofLexicon lexicon options).2.hasNoErrors ∧
      k.tables = (Compilation.ofAutomaton options (Automaton.ofLexicon lexicon options).1
        (Automaton.ofLexicon lexicon options).2).tables) ∧
    ∀ options', options'.maxRepetition = options.maxRepetition →
      (compile lexicon options').map Compilation.tables =
        (compile lexicon options).map Compilation.tables ∧
      ((Automaton.ofLexicon lexicon options).2.hasNoErrors = true →
        ∃ k, compile lexicon options' = .ok k ∧ k.hasTables = true) := by
  have himplements := implements_ofLexicon h
  refine ⟨?_, fun limit log => ?_, fun options' k hk => ?_, fun options' hmax => ⟨?_, ?_⟩⟩
  · obtain ⟨rows, hrows, -⟩ := Rows.serves_ofEngine himplements
    exact ⟨rows, hrows⟩
  · obtain ⟨warnings, -, hunmatched⟩ := Engine.exists_warnings himplements limit log
    rw [hunmatched]
  · rw [hk]
    exact Compilation.ofAutomaton_total himplements _ options options'
  · exact tables_compile_congr h hmax
  · -- With another bound for the search the lexicon is built as cleanly, so the gates let it pass.
    intro hlog
    have h' : BuiltCleanly lexicon options' := builtCleanly_congr h hmax
    rw [← ofLexicon_congr hmax] at hlog
    obtain ⟨-, htables, -⟩ := Compilation.ofAutomaton_total (implements_ofLexicon h')
      (Automaton.ofLexicon lexicon options').2 options' options'
    exact ⟨_, compile_of_hasNoErrors h' hlog, htables.trans hlog⟩

/-- The tables of the sample lexicon are the same with and without the search for rules that never
match. -/
theorem diagnostics_inert_masked : ∃ k k',
    compile Lexicon.masked Options.quiet = .ok k ∧
    compile Lexicon.masked { Options.quiet with warnUnreachable := true } = .ok k' ∧
    k'.hasTables = true ∧ k'.tables = k.tables := by
  have h : BuiltCleanly Lexicon.masked Options.quiet :=
    Automaton.builtCleanly_of_hasNoErrors rfl hasNoErrors_masked
  obtain ⟨-, -, -, hsame⟩ := diagnostics_inert h
  obtain ⟨-, hquiet⟩ := hsame Options.quiet rfl
  obtain ⟨htables, hloud⟩ := hsame { Options.quiet with warnUnreachable := true } rfl
  obtain ⟨k, hk, -⟩ := hquiet hasNoErrors_masked
  obtain ⟨k', hk', hhas⟩ := hloud hasNoErrors_masked
  rw [hk, hk'] at htables
  exact ⟨k, k', hk, hk', hhas, Except.ok.inj htables⟩

end Lexwright

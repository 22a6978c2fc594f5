import Lexwright.Proofs.Automaton.Layout
import Lexwright.Proofs.Automaton.Shape
import Lexwright.Proofs.Lexicon.Renaming

/-!
# `Lexwright.Proofs.Automaton.Renaming`: an automaton does not depend on names

Names are kept beside the states, to be shown. Where a renamed lexicon has no error either, its
automaton is the same but for the names (`nameless_ofLexicon_rename`), and so are its rows
(`ofEngine_nameless`).
-/

set_option autoImplicit false

namespace Lexwright

variable {ρ σ : String → String}

/-- What is known of a rule, but for its name. -/
def RuleInfo.nameless (r : RuleInfo) : RuleInfo := { r with name := "" }

/-- What is known of a lexical state, but for its name. -/
def LexStateInfo.nameless (s : LexStateInfo) : LexStateInfo := { s with name := "" }

/-- The automaton without the names of its rules and lexical states. -/
def Automaton.nameless (a : Automaton) : Automaton :=
  { a with
    lexStates := a.lexStates.map LexStateInfo.nameless
    rules := a.rules.map RuleInfo.nameless }

/-! ### The automaton of a renamed lexicon -/

section Layout

variable {rs rs' : List ResolvedRule}

/-- Rules that contribute the same have the same fragments. -/
theorem Block.ofRules_alike (h : List.Forall₂ (ResolvedRule.Alike ρ σ) rs rs')
    (start id base : Nat) : ofRules start id base rs' = ofRules start id base rs := by
  induction h generalizing id base with
  | nil => rfl
  | @cons r r' rest rest' hr hrest ih =>
    have haccept : r'.accept id = r.accept id := by
      simp [ResolvedRule.accept, hr.rule, Rule.rename]
    simp only [ofRules, hr.pattern, haccept, ih]

/-- Rules that are alike have the end of the input at the same place. -/
theorem findIdx?_isEof_alike (h : List.Forall₂ (ResolvedRule.Alike ρ σ) rs rs') :
    rs'.findIdx? ResolvedRule.isEof = rs.findIdx? ResolvedRule.isEof := by
  induction h with
  | nil => rfl
  | @cons r r' rest rest' hr hrest ih =>
    have heof : r'.isEof = r.isEof := by simp [ResolvedRule.isEof, hr.rule, Rule.rename]
    simp only [List.findIdx?_cons, heof, ih]

/-- Rules that are alike give the same entries, names apart. -/
theorem map_nameless_ofRule_alike (h : List.Forall₂ (ResolvedRule.Alike ρ σ) rs rs') (i : Nat)
    (fragments : List (Option (Nat × Nat))) :
    (List.zipWith (RuleInfo.ofRule i) rs' fragments).map RuleInfo.nameless =
      (List.zipWith (RuleInfo.ofRule i) rs fragments).map RuleInfo.nameless := by
  induction h generalizing fragments with
  | nil => rfl
  | @cons r r' rest rest' hr hrest ih =>
    cases fragments with
    | nil => rfl
    | cons fragment fragments =>
      simp [RuleInfo.ofRule, RuleInfo.nameless, ResolvedRule.isEof, hr.rule, hr.pos, hr.nextState,
        Rule.rename, ih]

namespace Builder

variable {b b' : Builder}

/-- Laying out a lexical state under another name. -/
theorem nameless_addState (h : b'.automaton.nameless = b.automaton.nameless) {index : Nat}
    {state : LexState} (hrules : List.Forall₂ (ResolvedRule.Alike ρ σ)
      (rulesOf b.env index state) (rulesOf b'.env index (state.rename ρ σ))) :
    (b'.addState index (state.rename ρ σ)).1.automaton.nameless =
      (b.addState index state).1.automaton.nameless := by
  obtain ⟨hstates, hlexStates, hinfos⟩ := Automaton.mk.injEq .. ▸ h
  have hlexState := congrArg Array.size hlexStates
  have hfirst := congrArg Array.size hinfos
  simp only [Array.size_map] at hlexState hfirst
  simp only [automaton_addState, Automaton.addRules, Automaton.nameless, Array.map_push,
    Array.map_append, List.map_toArray, hstates, hlexStates, hinfos, hlexState, hfirst, Block.ofLexState,
    Block.ofRules_alike hrules, findIdx?_isEof_alike hrules, map_nameless_ofRule_alike hrules,
    hrules.length_eq, LexStateInfo.nameless]

/-- Laying out lexical states under other names. -/
theorem nameless_addStates (h : b'.automaton.nameless = b.automaton.nameless)
    {states : List (LexState × Nat)}
    (hrules : ∀ s ∈ states, List.Forall₂ (ResolvedRule.Alike ρ σ) (rulesOf b.env s.2 s.1)
      (rulesOf b'.env s.2 (s.1.rename ρ σ))) :
    (b'.addStates (states.map (Prod.map (LexState.rename ρ σ) id))).automaton.nameless =
      (b.addStates states).automaton.nameless := by
  induction states generalizing b b' with
  | nil => exact h
  | cons s states ih =>
    -- the environments stay the same, so what is known of the later lexical states does too
    exact ih (nameless_addState h (hrules s List.mem_cons_self))
      fun s' hs' => hrules s' (List.mem_cons_of_mem _ hs')

end Builder

end Layout

/-- A lexicon and a renamed lexicon have automata that are the same but for the names, where neither
has an error. -/
theorem Automaton.nameless_ofLexicon_rename {lexicon lexicon' : Lexicon}
    {options options' : Options}
    (hstates : lexicon'.states = lexicon.states.map (LexState.rename ρ σ))
    (h : BuiltCleanly lexicon options) (h' : BuiltCleanly lexicon' options') :
    (ofLexicon lexicon' options').1.nameless = (ofLexicon lexicon options).1.nameless := by
  obtain ⟨heq, hsound⟩ := ofLexicon_eq h
  obtain ⟨heq', hsound'⟩ := ofLexicon_eq h'
  have hempty : (Builder.ofLexicon lexicon' options').automaton.nameless =
      (Builder.ofLexicon lexicon options).automaton.nameless := rfl
  rw [heq, heq', hstates, List.zipIdx_map]
  refine Builder.nameless_addStates hempty fun s hs => ?_
  exact Lexicon.alike_rulesOf hstates hsound hsound' (List.mem_zipIdx_iff_getElem?.1 hs)

/-! ### The rows of an automaton without names -/

/-- An automaton without names has the same shape. -/
theorem Automaton.sameShape_nameless (a : Automaton) : a.SameShape a.nameless where
  states := rfl
  starts := Array.map_map

/-- The rows of an automaton without its names are its rows. -/
theorem Rows.ofEngine_nameless (a : Automaton) :
    ofEngine (Engine.ofAutomaton a.nameless) = ofEngine (Engine.ofAutomaton a) := by
  rw [ofEngine_ofAutomaton, ofEngine_ofAutomaton, a.sameShape_nameless.searches_eq]
  rfl

end Lexwright

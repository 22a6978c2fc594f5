import Lexwright.Proofs.Automaton.Renumbering
import Lexwright.Proofs.Lexicon.Deletion

/-!
# `Lexwright.Proofs.Automaton.Deletion`: an automaton does not keep hidden rules

An automaton is made of what the rules of its lexicon contribute. A hidden rule contributes its
number only. So where such a rule can be deleted, the automaton of the lexicon that is left is the
automaton without the number (`Automaton.ofLexicon_without`).
-/

set_option autoImplicit false

namespace Lexwright

open Automaton (firstRuleOf)

variable {lexicon : Lexicon} {options : Options} {i j : Nat} {state : LexState} {rule : Rule}

/-! ### What an automaton is made of -/

/-- A block depends on what the rules contribute to the automaton, and on nothing else. -/
theorem Block.ofRules_map_contribution (start id base : Nat) (rs : List ResolvedRule) :
    ofRules start id base (rs.map ResolvedRule.contribution) = ofRules start id base rs := by
  induction rs generalizing id base with
  | nil => rfl
  | cons r rs ih =>
    rw [List.map_cons, ofRules, ofRules]
    simp only [ResolvedRule.contribution, ResolvedRule.accept, ih]

/-- What is wrong with the rules does not matter. -/
theorem Automaton.addRules_map_contribution (a : Automaton) (name : String)
    (rs : List ResolvedRule) :
    a.addRules name (rs.map ResolvedRule.contribution) = a.addRules name rs := by
  simp only [addRules, Block.ofLexState, Block.ofRules_map_contribution, List.length_map,
    List.findIdx?_map, List.zipWith_map_left]
  rfl

/-- The names of the lexical states, and what their rules contribute. -/
def Lexicon.contributions (lexicon : Lexicon) (options : Options) :
    List (String × List ResolvedRule) :=
  lexicon.states.zipIdx.map fun s =>
    (s.1.name, (Builder.rulesOf (Builder.ofLexicon lexicon options).env s.2 s.1).map
      ResolvedRule.contribution)

/-- The automaton of some states is made of what their rules contribute. -/
theorem Builder.automaton_addStates (b : Builder) (states : List (LexState × Nat)) :
    (b.addStates states).automaton =
      (states.map fun s =>
          (s.1.name, (rulesOf b.env s.2 s.1).map ResolvedRule.contribution)).foldl
        (fun a s => a.addRules s.1 s.2) b.automaton := by
  induction states generalizing b with
  | nil => rfl
  | cons s states ih =>
    rw [List.map_cons, List.foldl_cons, Automaton.addRules_map_contribution]
    exact ih (b.addState s.2 s.1).1

namespace Automaton

/-- An automaton that is built cleanly is made of the contributions of the rules, one lexical state
after another. -/
theorem ofLexicon_eq_foldl (h : BuiltCleanly lexicon options) : (ofLexicon lexicon options).1 =
    (lexicon.contributions options).foldl (fun a s => a.addRules s.1 s.2) {} := by
  obtain ⟨heq, -⟩ := ofLexicon_eq h
  rw [heq, Builder.automaton_addStates]
  rfl

end Automaton

/-! ### Without a hidden rule -/

namespace Lexicon

/-- What a lexical state contributes is what its rules contribute. -/
theorem getElem?_contributions (i : Nat) : (lexicon.contributions options)[i]? =
    (lexicon.states[i]?).map fun s =>
      (s.name, (Builder.rulesOf (Builder.ofLexicon lexicon options).env i s).map
        ResolvedRule.contribution) := by
  simp [contributions, Function.comp_def]

/-- Nothing but the contribution of the deleted rule is missing. -/
theorem contributions_without (h : lexicon.labels.2 = [])
    (hstate : lexicon.states[i]? = some state) (hrule : state.rules[j]? = some rule)
    (hisolated : lexicon.Isolated i j rule) : (lexicon.without i j).contributions options =
      (lexicon.contributions options).modify i fun s => (s.1, s.2.eraseIdx j) := by
  refine List.ext_getElem? fun i' => ?_
  rw [List.getElem?_modify, getElem?_contributions, getElem?_contributions,
    getElem?_states_without]
  cases hstate' : lexicon.states[i']? with
  | none => rfl
  | some state' =>
    have hrules := map_contribution_rulesOf options h hstate hrule hisolated hstate'
    simp only [Option.map_some] at hrules ⊢
    rw [hrules]
    by_cases hi : i = i'
    · simp [hi, LexState.without]
    · simp [hi]

/-- The rules in front of a lexical state are counted by their contributions. -/
theorem length_flatMap_take_contributions (lexicon : Lexicon) (options : Options) (i : Nat) :
    (((lexicon.contributions options).take i).flatMap (·.2)).length =
      firstRuleOf lexicon.states i := by
  have hlengths : (lexicon.contributions options).map (fun s => s.2.length) =
      lexicon.states.map fun s => s.rules.length := by
    refine List.ext_getElem? fun i => ?_
    rw [List.getElem?_map, List.getElem?_map, getElem?_contributions, Option.map_map]
    refine congrArg (Option.map · _) (funext fun s => ?_)
    rw [Function.comp_apply, List.length_map]
    exact length_resolveRules ..
  rw [firstRuleOf, List.length_flatMap, List.length_flatMap, List.map_take, List.map_take]
  exact congrArg (fun l => (l.take i).sum) hlengths

end Lexicon

namespace Automaton

/-- The automaton of a lexicon does not keep a hidden rule whose labels are not referenced from
elsewhere: without the rule it is built cleanly too, and it is the same but for the number of the
rule. -/
theorem ofLexicon_without (h : BuiltCleanly lexicon options)
    (hstate : lexicon.states[i]? = some state) (hrule : state.rules[j]? = some rule)
    (hhidden : rule.regex.tag.hidden = true) (heof : ¬rule.regex.isEof = true)
    (hisolated : lexicon.Isolated i j rule) :
    BuiltCleanly (lexicon.without i j) options ∧
      (ofLexicon (lexicon.without i j) options).1 =
        (ofLexicon lexicon options).1.withoutRule (firstRuleOf lexicon.states i + j) := by
  obtain ⟨-, hsound⟩ := ofLexicon_eq h
  have hleft : BuiltCleanly (lexicon.without i j) options := by
    refine builtCleanly_of_sound (Lexicon.sound_without hsound hstate hrule hisolated) ?_
    exact Nat.le_trans (Nat.le_of_eq (List.length_modify ..)) (length_le_of_builtCleanly h)
  refine ⟨hleft, ?_⟩
  obtain ⟨site, previous, seen, hr⟩ := exists_resolveRule (Builder.ofLexicon lexicon options).env
    hrule
  have hcontributed := (List.getElem?_map ..).trans (congrArg (Option.map
    ResolvedRule.contribution) hr)
  have hpattern : (resolveRule (Builder.ofLexicon lexicon options).env state site previous seen
      rule).contribution.pattern = none :=
    pattern_resolveRule.trans (if_pos (Or.inr hhidden))
  have hisEof : (resolveRule (Builder.ofLexicon lexicon options).env state site previous seen
      rule).contribution.isEof = false := by
    rw [ResolvedRule.isEof, ResolvedRule.contribution, rule_resolveRule]
    exact Bool.eq_false_iff.2 heof
  have hid : firstRuleOf lexicon.states i + j = ({} : Automaton).rules.size +
      (((lexicon.contributions options).take i).flatMap (·.2)).length + j := by
    rw [Lexicon.length_flatMap_take_contributions]
    exact congrArg (· + j) (Nat.zero_add _).symm
  rw [ofLexicon_eq_foldl h, ofLexicon_eq_foldl hleft,
    Lexicon.contributions_without hsound.labels hstate hrule hisolated,
    ← foldl_addRules_modify (by rw [Lexicon.getElem?_contributions, hstate]; rfl) hcontributed
      hpattern hisEof hid, withoutRule_empty]

end Automaton

end Lexwright

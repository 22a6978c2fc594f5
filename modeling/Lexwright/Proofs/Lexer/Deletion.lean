import Lexwright.Proofs.Automaton.Deletion
import Lexwright.Proofs.Automaton.Stepwise
import Lexwright.Proofs.Diagnostics
import Lexwright.Proofs.Lexer.Hidden

/-!
# `Lexwright.Proofs.Lexer.Deletion`: hidden rules can be deleted

A hidden rule is checked, and leaves no trace. While the states are laid out rule by rule, its own
are laid out and cut off again. So if the labels of the rule are referenced from nowhere else, it
can be deleted from its lexicon: the automaton keeps its states, the tables keep their rows, and all
that changes are the numbers of the rules behind it. A lexer does not notice.

* `Tables.withoutRule`: the tables without a rule.
* `Compilation.tables_withoutRule`: they are the tables of the automaton without the rule.
* `Lexer.suits_closeGap`: the new numbers lead to what the old ones led to.
* `Lexer.hidden_deletable`: all of this, for every hidden rule of every lexicon.
-/

set_option autoImplicit false

namespace Lexwright

open Automaton (firstRuleOf)

/-! ### Tables without a rule -/

/-- The tables without rule number `id`: the later rules have the number before theirs. -/
def Tables.withoutRule (t : Tables) (id : Nat) : Tables :=
  t.renumber (closeGap id) (t.terminals.toList.eraseIdx id).toArray

/-- The number that another rule gets leads to its entry. -/
theorem getElem?_eraseIdx_closeGap {α : Type} {xs : List α} {id n : Nat} (h : n ≠ id) :
    (xs.eraseIdx id)[closeGap id n]? = xs[n]? := by
  rw [List.getElem?_eraseIdx]
  by_cases hlt : n < id
  · rw [closeGap_of_le (Nat.le_of_lt hlt), if_pos hlt]
  · rw [closeGap_of_lt (by omega), if_neg (by omega)]
    exact congrArg (xs[·]?) (by omega)

namespace Compilation

variable {a : Automaton} {rows : Rows} {id : Nat}

/-- Deleting a rule leaves the sets of the moves as they are. -/
theorem moveSets_withoutRule :
    moveSets (a.withoutRule id) (rows.renumber (closeGap id)) = moveSets a rows := by
  unfold moveSets
  simp only [Automaton.withoutRule, Array.toList_map, List.zip_map_left, List.foldl_map]
  rfl

/-- Deleting a rule leaves the table of transitions as it is. -/
theorem transitions_withoutRule (sets : Interner Segments) (ids : Array Nat) :
    transitions (a.withoutRule id) (rows.renumber (closeGap id)) sets ids =
      transitions a rows sets ids := by
  refine Array.ext_getElem? fun q => ?_
  unfold transitions
  rw [Array.getElem?_zipWith, Array.getElem?_zipWith]
  rw [show (rows.renumber (closeGap id)).nextRows = rows.nextRows from rfl]
  simp only [Automaton.withoutRule, Array.getElem?_map]
  cases a.states[q]? with
  | none => rfl
  | some s =>
    cases rows.nextRows[q]? with
    | none => rfl
    | some next => rfl

/-- The tables of the automaton without the rule are its tables without the rule. -/
theorem tables_withoutRule (options options' : Options) (log log' : Log) :
    (ofRows options' log' (a.withoutRule id) (rows.renumber (closeGap id))).tables =
      (ofRows options log a rows).tables.withoutRule id := by
  have hterminals : ∀ f : RuleInfo → Terminal, (a.withoutRule id).rules.map f =
      ((a.rules.map f).toList.eraseIdx id).toArray := by
    intro f
    rw [Array.toList_map, List.eraseIdx_map]
    exact List.map_toArray
  have hlexStates : ∀ f : Nat → LexStateInfo → LexEntry,
      (∀ i s, f i (s.renumber (closeGap id)) = (f i s).renumber (closeGap id)) →
        (a.withoutRule id).lexStates.mapIdx f =
          (a.lexStates.mapIdx f).map (LexEntry.renumber (closeGap id)) := by
    intro f hf
    refine Array.ext_getElem? fun i => ?_
    simp only [Automaton.withoutRule, Array.getElem?_mapIdx, Array.getElem?_map, Option.map_map]
    exact congrArg (Option.map · a.lexStates[i]?) (funext (hf i))
  have hrules : (rows.renumber (closeGap id)).rules =
      rows.rules.map (Option.map (closeGap id)) := by
    simp only [Rows.rules, Rows.renumber, Array.map_map]
    refine congrArg (Array.map · rows.accepts) (funext fun accept => ?_)
    cases accept <;> rfl
  simp only [ofRows, moveSets_withoutRule, transitions_withoutRule, hterminals, hrules]
  rw [hlexStates _ fun _ _ => rfl]
  rfl

end Compilation

/-! ### Lexers without a hidden rule -/

variable {σ : Type} [CharStream σ] {lexicon : Lexicon} {options : Options} {k : Compilation}
  {i j id : Nat} {state : LexState} {rule : Rule}

/-- A hidden rule that is not an end-of-input rule is mute. -/
theorem Lexicon.mute_of_hidden (hstate : lexicon.states[i]? = some state)
    (hrule : state.rules[j]? = some rule) (hhidden : rule.regex.tag.hidden = true)
    (heof : ¬rule.regex.isEof = true) : lexicon.Mute (firstRuleOf lexicon.states i + j) := by
  refine ⟨i, rule, ?_, hhidden, heof⟩
  rw [getElem?_numbered hstate (List.getElem?_eq_some_iff.1 hrule).1, hrule]
  rfl

/-- Without the rule the lexicon compiles, to the rows and tables without the rule. -/
theorem compile_without (hk : compile lexicon options = .ok k)
    (hstate : lexicon.states[i]? = some state) (hrule : state.rules[j]? = some rule)
    (hhidden : rule.regex.tag.hidden = true) (heof : ¬rule.regex.isEof = true)
    (hisolated : lexicon.Isolated i j rule) :
    let number := firstRuleOf lexicon.states i + j
    ∃ k', compile (lexicon.without i j) options = .ok k' ∧
      (Automaton.ofLexicon (lexicon.without i j) options).1 =
        (Automaton.ofLexicon lexicon options).1.withoutRule number ∧
      k'.rows = k.rows.renumber (closeGap number) ∧
      k'.tables = k.tables.withoutRule number := by
  intro number
  obtain ⟨hbuilt, hautomaton⟩ := Automaton.ofLexicon_without (builtCleanly_of_compile hk) hstate
    hrule hhidden heof hisolated
  have hlog : (Automaton.ofLexicon (lexicon.without i j) options).2.hasNoErrors = true :=
    (hasNoErrors_ofLexicon hbuilt).trans (hasNoErrors_of_compile hk).1
  have hk' := compile_of_hasNoErrors hbuilt hlog
  obtain ⟨-, rows, later, hrows, -, rfl⟩ := exists_ofRows_of_compile hk
  obtain ⟨-, rows', later', hrows', -, heq⟩ := exists_ofRows_of_compile hk'
  rw [hautomaton, Rows.ofEngine_withoutRule number hrows] at hrows'
  cases hrows'
  rw [heq, hautomaton] at hk'
  exact ⟨_, hk', hautomaton, rfl, Compilation.tables_withoutRule ..⟩

namespace Lexer

/-- No row and no lexical state asks for a mute rule, so all that is asked for has its entry under
its new number. -/
theorem suits_closeGap (hk : compile lexicon options = .ok k) (hmute : lexicon.Mute id) :
    k.tables.Suits (closeGap id) (k.tables.terminals.toList.eraseIdx id).toArray := by
  have hentry : ∀ n, ¬lexicon.Mute n →
      (k.tables.terminals.toList.eraseIdx id).toArray[closeGap id n]? =
        k.tables.terminals[n]? := by
    intro n hn
    rw [List.getElem?_toArray, getElem?_eraseIdx_closeGap fun heq => hn (by rwa [heq]),
      Array.getElem?_toList]
  constructor
  case monotone => exact monotone_closeGap id
  case offers => exact fun n hn => hentry n fun hmute' => not_offers_of_mute hk hmute' hn
  case eofRule =>
    exact fun _ _ n hentry' heof => hentry n (not_mute_of_eofRule hk hentry' heof)

/-- The lexer with other tables. -/
def withTables {σ : Type} (lx : Lexer σ) (tables : Tables) : Lexer σ := { lx with tables }

/-- Any calls return the same without a mute rule. -/
theorem respond_withoutRule (hk : compile lexicon options = .ok k) (hmute : lexicon.Mute id)
    {lx : Lexer σ} (hlx : lx.Built k.tables) (requests : List Request) :
    (lx.withTables (k.tables.withoutRule id)).respond requests = lx.respond requests := by
  have hfits : ∀ {r q : Nat}, q ∈ k.tables.row r → q < k.tables.transitions.size :=
    (serves_of_compile hk).2.fits
  have htables := (hlx.ready hfits).tables_eq
  have hsame : lx.withTables (k.tables.withoutRule id) =
      lx.renumber (closeGap id) (k.tables.terminals.toList.eraseIdx id).toArray := by
    rw [renumber, htables]
    rfl
  rw [hsame]
  exact (respond_renumber (closed_of_compile hk) (suits_closeGap hk hmute) hfits hlx requests).1

/-- A hidden rule leaves no trace, unless it stands for the end of the input. Whatever is wrong with
a lexicon, the states after such a rule are the states before it, and rule by rule the states are
those that are laid out for a lexical state. If the lexicon compiles and no label in the rule is
referenced from elsewhere, then the lexicon without the rule compiles too. Its automaton has the
same states, edges and lexical states, and its tables have the same rows; only the rules behind the
deleted one have other numbers. A lexer that is given the new tables, at any time, goes on to return
the same, and so a new lexer with these tables returns the same for every stream. -/
theorem hidden_deletable :
    (∀ (env : Environment) (start lexState id : Nat) (site : Site) (rule : Rule)
      (states : Array State), rule.regex.tag.hidden = true → ¬rule.regex.isEof = true →
        Builder.layRule env start lexState id site rule states = states) ∧
    (∀ (b : Builder) (index : Nat) (state : LexState),
      (b.addState index state).1.automaton.states =
        Builder.layRules b.env b.automaton.states.size b.automaton.lexStates.size index 0
          b.automaton.rules.size state.rules
          (b.automaton.states.push { lexState := b.automaton.lexStates.size })) ∧
    ∀ {lexicon : Lexicon} {options : Options} {k : Compilation} {i j : Nat} {state : LexState}
      {rule : Rule}, compile lexicon options = .ok k → lexicon.states[i]? = some state →
      state.rules[j]? = some rule → rule.regex.tag.hidden = true → ¬rule.regex.isEof = true →
      lexicon.Isolated i j rule →
      let number := firstRuleOf lexicon.states i + j
      ∃ k', compile (lexicon.without i j) options = .ok k' ∧
        (Automaton.ofLexicon (lexicon.without i j) options).1 =
          (Automaton.ofLexicon lexicon options).1.withoutRule number ∧
        k'.rows = k.rows.renumber (closeGap number) ∧
        k'.tables = k.tables.withoutRule number ∧
        ∀ {σ : Type} [CharStream σ] (requests : List Request),
          (∀ lx : Lexer σ, lx.Built k.tables →
            (lx.withTables k'.tables).respond requests = lx.respond requests) ∧
          ∀ input : σ, ((ofTables k'.tables).attach input).respond requests =
            ((ofTables k.tables).attach input).respond requests := by
  refine ⟨fun _ _ _ _ _ _ _ hhidden _ => Builder.layRule_of_hidden hhidden,
    Builder.states_addState, ?_⟩
  intro lexicon options k i j state rule hk hstate hrule hhidden heof hisolated number
  obtain ⟨k', hk', hautomaton, hrows, htables⟩ :=
    compile_without hk hstate hrule hhidden heof hisolated
  have hmute : lexicon.Mute number := Lexicon.mute_of_hidden hstate hrule hhidden heof
  refine ⟨k', hk', hautomaton, hrows, htables, fun {σ} _ requests => ?_⟩
  -- The rules that are left answer as before, under their new numbers.
  have hsame : ∀ lx : Lexer σ, lx.Built k.tables →
      (lx.withTables k'.tables).respond requests = lx.respond requests := by
    intro lx hlx
    rw [htables]
    exact respond_withoutRule hk hmute hlx requests
  have hattach : ∀ input : σ, (ofTables k'.tables).attach input =
      ((ofTables k.tables).attach input).withTables k'.tables := by
    intro input
    rw [htables]
    rfl
  exact ⟨hsame, fun input => by rw [hattach, hsame _ (.attach .ofTables input)]⟩

end Lexer

/-! ### A rule that uses its own label -/

/-- A hidden rule that refers to a label of its own, in front of two other rules. -/
def Lexicon.scaffold : Lexicon where
  states := [main]
where
  half : Regex := .literal { label := some "HALF" } "a"
  pair : Rule :=
    { ordinal := 0, kind := 1,
      regex := .seq { label := some "PAIR", hidden := true } [half, .ref {} "HALF"] }
  main : LexState :=
    { name := "main"
      rules := [pair, { ordinal := 1, kind := 2, regex := .literal {} "b" },
        { ordinal := 2, kind := 3, regex := .eof {} }] }

namespace Lexicon

/-- The labels of the scaffold, none of them used twice. -/
theorem labels_scaffold : scaffold.labels =
    (((∅ : Labels).insert "PAIR" ⟨⟨0, 0, []⟩, scaffold.pair.regex⟩).insert "HALF"
      ⟨⟨0, 0, [0]⟩, scaffold.half⟩, []) := by
  simp [labels, nodes, scaffold, scaffold.main, scaffold.pair, scaffold.half, Regex.nodes,
    Regex.walk, Regex.Located.children, Regex.children, addLabel, Regex.tag]

/-- The scaffold has no configuration error. -/
theorem sound_scaffold : scaffold.Sound .quiet := by
  refine sound_of_single rfl (by rw [labels_scaffold]) ?_
  have hlabel : (Builder.ofLexicon scaffold .quiet).env.labels["HALF"]? =
      some ⟨⟨0, 0, [0]⟩, scaffold.half⟩ := by
    simp [Builder.ofLexicon, labels_scaffold]
  generalize (Builder.ofLexicon scaffold .quiet).env = env at hlabel
  have hpair : ∀ site, (Regex.resolve ⟨env.labels, env.limit, false⟩ [] site
      (.seq { label := some "PAIR", hidden := true } [scaffold.half, .ref {} "HALF"])).2 =
        [] := by
    intro site
    rw [Regex.resolve, Regex.resolveAll, Regex.resolveAll,
      Regex.resolve_ref_of_some (by simp [Tag.open]) hlabel]
    simp [scaffold.half, Regex.resolveAll, Regex.resolve]
  have hliteral : ∀ site, (Regex.resolve ⟨env.labels, env.limit, false⟩ [] site
      (.literal {} "b")).2 = [] := fun site => by simp [Regex.resolve]
  simp [Builder.rulesOf, scaffold.main, scaffold.pair, resolveRules, resolveRule,
    ordinalIssues, resolveNext, Regex.isEof, Regex.tag, eofKind, hpair, hliteral]

/-- No label of the first rule is referenced outside of it. -/
theorem isolated_pair : scaffold.Isolated 0 0 scaffold.pair := by
  intro node hnode name hlabel tag href
  have hparts : (scaffold.without 0 0).parts = [.literal {} "b", .eof {}] := rfl
  simp [hparts] at href

end Lexicon

/-- Without the hidden rule of the sample lexicon, the rule for the end of the input has another
number, and a lexer returns the same. -/
theorem Lexer.hidden_deletable_scaffold : ∃ k k',
    compile Lexicon.scaffold .quiet = .ok k ∧
    compile (Lexicon.scaffold.without 0 0) .quiet = .ok k' ∧
    (Automaton.ofLexicon Lexicon.scaffold .quiet).1.lexStates[0]?.map (·.eofRule) =
      some (some 2) ∧
    (Automaton.ofLexicon (Lexicon.scaffold.without 0 0) .quiet).1.lexStates[0]?.map (·.eofRule) =
      some (some 1) ∧
    ((ofTables k'.tables).attach { source := .ofString "bab" } : Lexer Reader).respond
        [.next, .next, .next] =
      ((ofTables k.tables).attach { source := .ofString "bab" } : Lexer Reader).respond
        [.next, .next, .next] := by
  have hbuilt := Automaton.builtCleanly_of_sound Lexicon.sound_scaffold (by decide)
  have hk := compile_of_hasNoErrors hbuilt ((hasNoErrors_ofLexicon hbuilt).trans rfl)
  obtain ⟨-, -, hdelete⟩ := hidden_deletable
  obtain ⟨k', hk', hautomaton, -, -, hsame⟩ := hdelete (i := 0) (j := 0) hk rfl rfl rfl
    (by decide) Lexicon.isolated_pair
  have heof : (Automaton.ofLexicon Lexicon.scaffold .quiet).1.lexStates[0]?.map (·.eofRule) =
      some (some 2) := by
    rw [Automaton.ofLexicon_eq_foldl hbuilt]
    rfl
  refine ⟨_, k', hk, hk', heof, ?_, (hsame [.next, .next, .next]).2 _⟩
  obtain ⟨info, hinfo, heof⟩ := Option.map_eq_some_iff.1 heof
  rw [hautomaton, Automaton.withoutRule, Array.getElem?_map, hinfo, Option.map_some,
    Option.map_some, LexStateInfo.renumber, heof]
  rfl

end Lexwright

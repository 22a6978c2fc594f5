import Lexwright.Proofs.Automaton.Unmatched
import Lexwright.Proofs.Lexer.Renumbering

/-!
# `Lexwright.Proofs.Lexer.Hidden`: hidden rules do nothing

A hidden rule exists to be referenced. It has a number, and the tables have an entry for it as for
any other rule: a kind, a category, and perhaps a lexical state to enter. Whatever this entry says,
a lexer does the same. So no token, no dropped or kept text and no lexical state comes from it.

* `Lexicon.Mute`: the hidden rules, but for those that stand for the end of the input.
* `not_offers_of_mute`, `not_mute_of_eofRule`: neither a row nor the end of the input asks for one.
* `Lexer.withTerminals`: a lexer whose rules ask for something else.
* `Lexer.mute_inert`: no mute rule is found, and any calls do the same whatever mute rules ask for.
* `Lexer.hidden_eof_returned`: a hidden rule for the end of the input is not mute.
-/

set_option autoImplicit false

namespace Lexwright

variable {σ : Type} [CharStream σ] {id : Nat} {terminals : Array Terminal}
  {lexicon : Lexicon} {options : Options} {k : Compilation}

/-- The rule is hidden, and does not stand for the end of the input. -/
def Lexicon.Mute (lexicon : Lexicon) (id : Nat) : Prop :=
  ∃ i rule, lexicon.numbered[id]? = some (i, rule) ∧ rule.regex.tag.hidden = true ∧
    ¬rule.regex.isEof = true

/-! ### What is asked for -/

/-- No row accepts a mute rule. -/
theorem not_offers_of_mute (hk : compile lexicon options = .ok k) (hmute : lexicon.Mute id) :
    ¬k.tables.Offers id := by
  intro ⟨r, hr, hrule⟩
  obtain ⟨i, rule, hnumbered, hhidden, -⟩ := hmute
  obtain ⟨himplements, rows, later, -, hrows, rfl⟩ := exists_ofRows_of_compile hk
  rw [Compilation.size_rows_ofRows] at hr
  have hset := Array.getElem?_eq_getElem hr
  -- What the engine finds for the row is accepted by a member, and so is not hidden.
  obtain ⟨-, acc, hacc, hrow⟩ := Compilation.isRow_ofRows hrows hset
  obtain ⟨j, hj⟩ := hrows.inLexState hset
  obtain ⟨acc', hacc', hlowest⟩ := himplements.exists_acceptOf hj
  rw [hacc] at hacc'
  cases hacc'
  rw [hrule] at hrow
  obtain ⟨x, rfl, rfl⟩ := Option.map_eq_some_iff.1 hrow.symm
  obtain ⟨⟨q, -, hq⟩, -⟩ := hlowest
  exact (himplements.visible_of_accept hq hnumbered).2 hhidden

/-- No lexical state has a mute rule for the end of the input. -/
theorem not_mute_of_eofRule (hk : compile lexicon options = .ok k) {i : Nat} {entry : LexEntry}
    (hentry : k.tables.lexStates[i]? = some entry) (heof : entry.eofRule = some id) :
    ¬lexicon.Mute id := by
  rintro ⟨j, rule, hnumbered, -, hnot⟩
  obtain ⟨himplements, hserves⟩ := serves_of_compile hk
  have hi : i < (Automaton.ofLexicon lexicon options).1.lexStates.size := by
    rw [← hserves.lexStates]
    exact (Array.getElem?_eq_some_iff.1 hentry).1
  have hinfo := Array.getElem?_eq_getElem hi
  obtain ⟨entry', hentry', hsame, -⟩ := hserves.entry hinfo
  rw [hentry] at hentry'
  cases hentry'
  obtain ⟨rule', hnumbered', hisEof⟩ := (himplements.eofRule hinfo).1 (hsame.symm.trans heof)
  rw [hnumbered] at hnumbered'
  cases hnumbered'
  exact hnot hisEof

/-! ### Other entries for the rules -/

/-- The tables with other entries for the rules. -/
def Tables.withTerminals (t : Tables) (terminals : Array Terminal) : Tables := { t with terminals }

namespace Lexer

/-- The lexer with other entries for the rules. -/
def withTerminals {σ : Type} (lx : Lexer σ) (terminals : Array Terminal) : Lexer σ :=
  { lx with tables := lx.tables.withTerminals terminals }

omit [CharStream σ] in
/-- The entries are other ones, and the numbers are the same. -/
theorem withTerminals_eq (lx : Lexer σ) (terminals : Array Terminal) :
    lx.withTerminals terminals = lx.renumber (fun n => n) terminals := by
  have hentries : LexEntry.renumber (fun n => n) = fun e => e := by
    funext e
    simp [LexEntry.renumber]
  simp [withTerminals, renumber, Tables.withTerminals, Tables.renumber, hentries]

/-! ### Mute rules -/

/-- Only the terminals of rules that are not mute have to stay. -/
theorem suits_of_mute (hk : compile lexicon options = .ok k)
    (h : ∀ id, ¬lexicon.Mute id → terminals[id]? = k.tables.terminals[id]?) :
    k.tables.Suits (fun n => n) terminals where
  monotone := fun _ _ h => h
  offers id hid := h id fun hmute => not_offers_of_mute hk hmute hid
  eofRule _ _ id hentry heof := h id (not_mute_of_eofRule hk hentry heof)

/-- Mute rules do nothing. No lexer with these tables finds one, and no lexical state ends with one,
so whatever mute rules ask for, any calls return the same and leave the same. -/
theorem mute_inert (hk : compile lexicon options = .ok k) {lx : Lexer σ} (hlx : lx.Built k.tables) :
    (∀ (lx' : Lexer σ) (stream : σ) (i : Nat) (entry : LexEntry), lx'.tables = k.tables →
      k.tables.lexStates[i]? = some entry →
        (∀ m, (lx'.scan stream entry).best = some m → ¬lexicon.Mute m.rule) ∧
        ∀ id, entry.eofRule = some id → ¬lexicon.Mute id) ∧
    ∀ terminals : Array Terminal,
      (∀ id, ¬lexicon.Mute id → terminals[id]? = k.tables.terminals[id]?) →
      ∀ requests, (lx.withTerminals terminals).respond requests = lx.respond requests ∧
        (lx.withTerminals terminals).proceed requests =
          (lx.proceed requests).withTerminals terminals := by
  have hclosed := closed_of_compile hk
  refine ⟨fun lx' stream i entry htables hentry => ⟨fun m hm hmute => ?_, fun id heof => ?_⟩,
    fun terminals hterminals requests => ?_⟩
  · rw [← htables] at hclosed
    have hoffers := Tables.offers_scanFrom hclosed
      { stream, caret := lx'.caret, marks := lx'.marks } _ (fun m hm => nomatch hm) m hm
    rw [htables] at hoffers
    exact not_offers_of_mute hk hmute hoffers
  · exact not_mute_of_eofRule hk hentry heof
  · rw [withTerminals_eq, withTerminals_eq]
    exact respond_renumber hclosed (suits_of_mute hk hterminals) (serves_of_compile hk).2.fits hlx
      requests

/-- Of the masked lexicon only the first rule is mute. -/
theorem mute_masked_iff : Lexicon.masked.Mute id ↔ id = 0 := by
  have hrules : Lexicon.masked.numbered = [(0, Lexicon.masked.one 0 "A" true),
    (0, Lexicon.masked.one 1 "B" false), (0, Lexicon.masked.one 2 "C" false)] := rfl
  constructor
  · intro ⟨i, rule, hnumbered, hhidden, _⟩
    rw [hrules] at hnumbered
    match id with
    | 0 => rfl
    | 1 =>
      cases hnumbered
      exact absurd hhidden (by decide)
    | 2 =>
      cases hnumbered
      exact absurd hhidden (by decide)
  · intro h
    rw [h]
    exact ⟨0, Lexicon.masked.one 0 "A" true, rfl, rfl, by decide⟩

/-- Even if the hidden rule of the sample lexicon asked to drop what it matches and to enter another
lexical state, its lexer would return the same. -/
theorem mute_inert_masked : ∃ k, compile Lexicon.masked Options.quiet = .ok k ∧
    Lexicon.masked.Mute 0 ∧
    (((ofTables k.tables).attach { source := .ofString "aab" } : Lexer Reader).withTerminals
      (k.tables.terminals.setIfInBounds 0 ⟨9, .skip, some 3⟩)).respond [.next, .next, .next] =
    ((ofTables k.tables).attach { source := .ofString "aab" } : Lexer Reader).respond
      [.next, .next, .next] := by
  obtain ⟨k, hk⟩ := exists_compile rfl hasNoErrors_masked rfl
  have hbuilt : ((ofTables k.tables).attach { source := .ofString "aab" } : Lexer Reader).Built
      k.tables := .attach .ofTables _
  obtain ⟨-, hsame⟩ := mute_inert hk hbuilt
  have hterminals : ∀ id, ¬Lexicon.masked.Mute id →
      (k.tables.terminals.setIfInBounds 0 ⟨9, .skip, some 3⟩)[id]? = k.tables.terminals[id]? := by
    intro id hid
    exact Array.getElem?_setIfInBounds_ne fun h => hid (mute_masked_iff.2 h.symm)
  exact ⟨k, hk, mute_masked_iff.2 rfl, (hsame _ hterminals [.next, .next, .next]).1⟩

end Lexer

/-! ### A hidden rule for the end of the input -/

/-- The one rule is hidden, and stands for the end of the input. -/
def Lexicon.sealed : Lexicon where
  states := [{ name := "main", rules := [finish] }]
where
  finish : Rule :=
    { ordinal := 0, kind := 5, regex := .eof { label := some "E", hidden := true } }

set_option maxRecDepth 100000 in
/-- The sealed lexicon has no configuration error. -/
theorem hasNoErrors_sealed :
    (Automaton.ofLexicon Lexicon.sealed Options.quiet).2.hasNoErrors = true := by
  cbv

/-- The token at the end of the input is returned, though the rule that asks for it is hidden. -/
theorem Lexer.hidden_eof_returned :
    (∀ x ∈ Lexicon.sealed.numbered, x.2.regex.tag.hidden = true) ∧
    ∃ k, compile Lexicon.sealed Options.quiet = .ok k ∧
      ((ofTables k.tables).attach { source := .ofString "" } : Lexer Reader).nextToken.1 =
        .ok (some ⟨5, 0, "", .empty⟩) := by
  refine ⟨by decide, ?_⟩
  obtain ⟨k, hk⟩ := exists_compile rfl hasNoErrors_sealed rfl
  obtain ⟨_, hcall, -⟩ := call_nextToken Reader.faithful hk (holds_attach hk .ofTables "")
  refine ⟨k, hk, ?_⟩
  have heof : ∀ rule, some Lexicon.sealed.finish = some rule ↔ Lexicon.sealed.EofRule 0 rule := by
    intro rule
    constructor
    · intro h
      cases h
      exact ⟨0, rfl, rfl⟩
    · intro ⟨id, hid, _⟩
      have hmem := List.mem_of_getElem? hid
      cases List.mem_singleton.1 hmem
      rfl
  -- The reference asks this rule at the end of the text.
  have hend : Lexicon.sealed.Call 4 (Cursor.start "".toList) (.ok (some ⟨5, 0, "", .empty⟩))
      { Cursor.start "".toList with ended := true } :=
    .reads rfl (.finish (@Lexicon.Turn.ended _ 4 (Cursor.start "".toList) "" ⟨1, 1⟩ _ rfl heof))
  exact (hcall.eq hend).1

end Lexwright

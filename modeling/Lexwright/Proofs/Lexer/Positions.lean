import Lexwright.Proofs.Lexer.Safety

/-!
# `Lexwright.Proofs.Lexer.Positions`: positions are those of the text that was consumed

A scan moves the caret over all that it reads, and what is put back afterwards moves it back. All the
same, between calls the caret stands where the characters that were consumed lead from the start of
the text, and the places in tokens and errors are those of their characters.

* `Caret.behind`: where the first `n` characters of a text lead. Nothing but these decides it.
* `Caret.not_before_behind`: more characters never lead back.
* `Token.Covers`, `Result.Placed`: a token, and a result, with the places of their characters.
* `Outcome.Placed`: the same for one match. `Lexicon.Turn.placed` is the step that a run repeats.
* `Lexer.placed_run`, `Lexer.placed_call`, `Lexer.placed_proceed`: a run of matches, a call and any
  calls.
* `Lexer.positions_of_text`: what this comes to for a lexer that is attached to a reader.
-/

set_option autoImplicit false

namespace Lexwright

open CharStream (Steady)

/-! ### Positions never go back -/

namespace Pos

variable {p q r : Pos}

/-- A place is not before one that is on an earlier line or no further on its own. -/
theorem before_eq_false_iff :
    p.before q = false ↔ q.line < p.line ∨ q.line = p.line ∧ q.col ≤ p.col := by
  unfold before
  simp only [Bool.or_eq_false_iff, Bool.and_eq_false_iff, decide_eq_false_iff_not, beq_eq_false_iff_ne]
  omega

/-- That a place is not before another is transitive. -/
theorem not_before_trans (hpq : q.before p = false) (hqr : r.before q = false) :
    r.before p = false := by
  rw [before_eq_false_iff] at hpq hqr ⊢
  omega

end Pos

namespace Caret

variable {tabWidth : Nat} {k : Caret} {w text : List Char} {m n : Nat}

/-- The caret stands in a line and in a column, both counted from 1. -/
structure Proper (k : Caret) : Prop where
  line : 1 ≤ k.line
  col : 1 ≤ k.col

/-- A character moves a proper caret to a proper one. -/
theorem Proper.advance (h : k.Proper) (c : Char) : (k.advance tabWidth c).Proper := by
  have hline := h.line
  have hcol := h.col
  unfold Caret.advance
  split
  · have hmod := Nat.mod_le (k.col - 1) tabWidth
    exact ⟨hline, by show 1 ≤ k.col - (k.col - 1) % tabWidth + tabWidth; omega⟩
  · exact ⟨Nat.le_add_left .., Nat.le_refl 1⟩
  · exact ⟨hline, hcol⟩
  · exact ⟨hline, Nat.le_add_left ..⟩

/-- A tab goes to the right, since tab stops are at least one column apart. -/
theorem not_before_advance (htab : 1 ≤ tabWidth) (h : k.Proper) (c : Char) :
    (k.advance tabWidth c).pos.before k.pos = false := by
  have hcol := h.col
  rw [Pos.before_eq_false_iff]
  unfold advance
  split
  · have hmod := Nat.mod_lt (k.col - 1) htab
    exact Or.inr ⟨rfl, by show k.col ≤ k.col - (k.col - 1) % tabWidth + tabWidth; omega⟩
  · exact Or.inl (Nat.lt_succ_self _)
  · exact Or.inr ⟨rfl, Nat.le_refl _⟩
  · exact Or.inr ⟨rfl, Nat.le_succ _⟩

/-- Moving over two words is moving over one and then the other. -/
theorem advanceAll_append (k : Caret) (v w : List Char) :
    k.advanceAll tabWidth (v ++ w) = (k.advanceAll tabWidth v).advanceAll tabWidth w :=
  List.foldl_append

/-- A word moves a proper caret to a proper one. -/
theorem Proper.advanceAll (h : k.Proper) (w : List Char) : (k.advanceAll tabWidth w).Proper := by
  induction w generalizing k with
  | nil => exact h
  | cons c w ih => exact ih (h.advance c)

/-- No word moves a caret backwards. -/
theorem not_before_advanceAll (htab : 1 ≤ tabWidth) (h : k.Proper) (w : List Char) :
    (k.advanceAll tabWidth w).pos.before k.pos = false := by
  induction w generalizing k with
  | nil => exact Pos.before_eq_false_iff.2 (Or.inr ⟨rfl, Nat.le_refl _⟩)
  | cons c w ih => exact Pos.not_before_trans (not_before_advance htab h c) (ih (h.advance c))

/-- Where the first `n` characters of a text lead from its start. -/
def behind (tabWidth : Nat) (text : List Char) (n : Nat) : Caret :=
  Caret.start.advanceAll tabWidth (text.take n)

/-- The caret behind any part of a text is proper. -/
theorem proper_behind (tabWidth : Nat) (text : List Char) (n : Nat) :
    (behind tabWidth text n).Proper := by
  have hstart : Caret.start.Proper := ⟨Nat.le_refl 1, Nat.le_refl 1⟩
  exact hstart.advanceAll _

/-- The characters that follow lead on. -/
theorem behind_add (tabWidth : Nat) (text : List Char) (m n : Nat) :
    behind tabWidth text (m + n) =
      (behind tabWidth text m).advanceAll tabWidth ((text.drop m).take n) := by
  unfold behind
  rw [List.take_add, advanceAll_append]

/-- More characters never lead back. -/
theorem not_before_behind (htab : 1 ≤ tabWidth) (h : m ≤ n) :
    (behind tabWidth text n).pos.before (behind tabWidth text m).pos = false := by
  rw [← Nat.add_sub_cancel' h, behind_add]
  exact not_before_advanceAll htab (proper_behind ..) _

end Caret

/-! ### Places in a text -/

/-- The cursor stands where the characters before it lead, and the others are left. -/
structure Cursor.AtPlace (tabWidth : Nat) (text : List Char) (k : Cursor) : Prop where
  le : k.caret.count ≤ text.length
  caret_eq : k.caret = .behind tabWidth text k.caret.count
  rest_eq : k.rest = text.drop k.caret.count

/-- The text are the characters from number `s` on and before number `n`, and the position is that
of the first of them. -/
structure Kept (tabWidth : Nat) (text : List Char) (s n : Nat) (kept : String) (first : Pos) :
    Prop where
  le : s ≤ n
  text_eq : kept.toList = (text.take n).drop s
  first_eq : first = (Caret.behind tabWidth text s).pos

/-- The text of the token are the characters from number `s` on and before number `n`, at least one,
and its span goes from the first to the last of them. -/
structure Token.Covers (tabWidth : Nat) (text : List Char) (s n : Nat) (token : Token) : Prop where
  lt : s < n
  le : n ≤ text.length
  text_eq : token.text.toList = (text.take n).drop s
  first_eq : token.span.first = (Caret.behind tabWidth text s).pos
  last_eq : token.span.last = (Caret.behind tabWidth text (n - 1)).pos
  isEmpty : token.span.isEmpty = false

/-- The result of reading from character `m` up to character `n`. A token covers the characters at
the end, unless it is that for the end of the input, and an unrecognized character is the last. -/
structure Result.Placed (tabWidth : Nat) (text : List Char) (m n : Nat) (ended : Bool)
    (result : Result) : Prop where
  token : ∀ token, result = .ok (some token) → ended = false →
    ∃ s, m ≤ s ∧ token.Covers tabWidth text s n
  eofToken : ∀ token, result = .ok (some token) → ended = true →
    token.text = "" ∧ token.span = .empty
  unrecognized : ∀ info, result = .error (.unrecognizedChar info) →
    m < n ∧ info.caret = .behind tabWidth text (n - 1) ∧ text[n - 1]? = info.char

/-- What became of one match, when reading began at character `m`. -/
def Outcome.Placed (tabWidth : Nat) (text : List Char) (m : Nat) : Outcome → Prop
  | .finish result after => after.AtPlace tabWidth text ∧ m ≤ after.caret.count ∧
      result.Placed tabWidth text m after.caret.count after.ended
  | .next after kept first => after.AtPlace tabWidth text ∧ after.ended = false ∧
      ∃ s, m ≤ s ∧ Kept tabWidth text s after.caret.count kept first

variable {tabWidth m n s : Nat} {text : List Char} {k : Cursor} {kept : String} {first : Pos}
  {lexicon : Lexicon} {o : Outcome}

/-- Consuming characters counts them. -/
theorem Cursor.count_consume (hn : n ≤ k.rest.length) :
    (k.consume tabWidth n).caret.count = k.caret.count + n := by
  unfold Cursor.consume
  rw [Caret.count_advanceAll, List.length_take, Nat.min_eq_left hn]

/-- The caret of a cursor at its place stays the one behind what was consumed. -/
theorem Cursor.AtPlace.caret_consume (h : k.AtPlace tabWidth text) (n : Nat) :
    (k.consume tabWidth n).caret = .behind tabWidth text (k.caret.count + n) := by
  rw [Caret.behind_add, ← h.caret_eq, ← h.rest_eq]
  rfl

/-- Moving past characters that are left leads to another place. -/
theorem Cursor.AtPlace.consume (h : k.AtPlace tabWidth text) (hn : n ≤ k.rest.length) :
    (k.consume tabWidth n).AtPlace tabWidth text := by
  have hcount : (k.consume tabWidth n).caret.count = _ := Cursor.count_consume hn
  have hlength : k.rest.length = text.length - k.caret.count := by
    rw [h.rest_eq, List.length_drop]
  have hle := h.le
  constructor
  · rw [hcount]
    omega
  · rw [hcount]
    exact h.caret_consume n
  · rw [hcount, ← List.drop_drop, ← h.rest_eq]
    rfl

/-- The text that is kept grows by the characters that are consumed. -/
theorem Kept.append (h : Kept tabWidth text s k.caret.count kept first)
    (hk : k.AtPlace tabWidth text) (n : Nat) :
    Kept tabWidth text s (k.caret.count + n) (kept ++ String.ofList (k.rest.take n)) first := by
  refine ⟨Nat.le_add_right_of_le h.le, ?_, h.first_eq⟩
  have hlength : (text.take k.caret.count).length = k.caret.count := by
    rw [List.length_take, Nat.min_eq_left hk.le]
  rw [String.toList_append, String.toList_ofList, h.text_eq, List.take_add, ← hk.rest_eq,
    List.drop_append_of_le_length (hlength.symm ▸ h.le)]

/-- Text that is kept is that of a token when there is some. -/
theorem Kept.covers (htab : 1 ≤ tabWidth) (h : Kept tabWidth text s n kept first) (hlt : s < n)
    (hle : n ≤ text.length) (kind channel : Nat) :
    Token.Covers tabWidth text s n
      ⟨kind, channel, kept, ⟨first, (Caret.behind tabWidth text (n - 1)).pos⟩⟩ := by
  refine ⟨hlt, hle, h.text_eq, h.first_eq, rfl, ?_⟩
  show Pos.before _ first = false
  rw [h.first_eq]
  exact Caret.not_before_behind htab (Nat.le_sub_one_of_lt hlt)

namespace Lexicon

/-- A match moves on to a place, and a token that it returns covers what was kept and what it
matches. -/
theorem placed_onMatch (htab : 1 ≤ tabWidth) (hk : k.AtPlace tabWidth text)
    (hended : k.ended = false) (hm : m ≤ s) (hkept : Kept tabWidth text s k.caret.count kept first)
    {rule : Rule} (hpos : 1 ≤ n) (hn : n ≤ k.rest.length) :
    (lexicon.onMatch tabWidth k kept first rule n).Placed tabWidth text m := by
  have hplace := hk.consume hn
  have hafter : (lexicon.afterMatch tabWidth k rule n).AtPlace tabWidth text :=
    ⟨hplace.le, hplace.caret_eq, hplace.rest_eq⟩
  have hcount : (lexicon.afterMatch tabWidth k rule n).caret.count = k.caret.count + n :=
    Cursor.count_consume hn
  have hgrown := hkept.append hk n
  rw [← hcount] at hgrown
  have hlt : s < (lexicon.afterMatch tabWidth k rule n).caret.count := by
    have := hkept.le
    omega
  have hlast : (k.consume tabWidth (n - 1)).caret =
      .behind tabWidth text ((lexicon.afterMatch tabWidth k rule n).caret.count - 1) := by
    rw [hk.caret_consume, hcount, Nat.add_sub_assoc hpos]
  -- A token of either channel covers the text, and so is placed.
  have hresult : ∀ channel, Result.Placed tabWidth text m
      (lexicon.afterMatch tabWidth k rule n).caret.count false
      (.ok (some ⟨rule.kind, channel, kept ++ String.ofList (k.rest.take n),
        ⟨first, (k.consume tabWidth (n - 1)).caret.pos⟩⟩)) := by
    intro channel
    refine ⟨fun token h _ => ?_, fun token _ h => (nomatch h), fun info h => (nomatch h)⟩
    cases h
    rw [hlast]
    exact ⟨s, hm, hgrown.covers htab hlt hafter.le _ _⟩
  have hle := Nat.le_trans hm hgrown.le
  unfold onMatch
  cases rule.category with
  | token => exact ⟨hafter, hle, hended ▸ hresult 0⟩
  | special => exact ⟨hafter, hle, hended ▸ hresult 1⟩
  | skip =>
    refine ⟨hafter, hended, _, hle, Nat.le_refl _, ?_, congrArg Caret.pos hafter.caret_eq⟩
    rw [List.drop_eq_nil_of_le (List.length_take_le ..)]
    rfl
  | more => exact ⟨hafter, hended, s, hm, hgrown⟩

/-- The token of an end-of-input rule is empty, and so is its span. -/
theorem empty_of_eofToken {rule : Rule} {token : Token} (h : eofToken rule = some token) :
    token.text = "" ∧ token.span = .empty := by
  unfold eofToken at h
  cases hcategory : rule.category <;> rw [hcategory] at h <;> cases h <;> exact ⟨rfl, rfl⟩

/-- A turn moves on to a place, with a result that is placed. -/
theorem Turn.placed (htab : 1 ≤ tabWidth) (hk : k.AtPlace tabWidth text)
    (hended : k.ended = false) (hm : m ≤ s) (hkept : Kept tabWidth text s k.caret.count kept first)
    (h : lexicon.Turn tabWidth k kept first o) : o.Placed tabWidth text m := by
  have hle := Nat.le_trans hm hkept.le
  cases h with
  | @matched rule n h =>
    obtain ⟨id, hselects, -⟩ := h
    exact placed_onMatch htab hk hended hm hkept hselects.pos hselects.le
  | @unrecognized c rest hnone hrest =>
    have hlength : 1 ≤ k.rest.length := by
      rw [hrest]
      exact Nat.le_add_left ..
    have hcount : (k.consume tabWidth 1).caret.count = k.caret.count + 1 :=
      Cursor.count_consume hlength
    refine ⟨hk.consume hlength, ?_, fun token h => (nomatch h), fun token h => (nomatch h),
      fun info h => ?_⟩
    · -- The character lies behind everything that was kept.
      rw [hcount]
      exact Nat.le_add_right_of_le hle
    · cases h
      rw [hcount, Nat.add_sub_cancel]
      refine ⟨Nat.lt_succ_of_le hle, hk.caret_eq, ?_⟩
      rw [← Nat.add_zero k.caret.count, ← List.getElem?_drop, ← hk.rest_eq, hrest]
      rfl
  | @ended eof hrest heof =>
    refine ⟨⟨hk.le, hk.caret_eq, hk.rest_eq⟩, hle, fun token _ h => (nomatch h),
      fun token h _ => ?_, fun info h => ?_⟩
    · by_cases hempty : kept = ""
      · rw [if_pos hempty] at h
        obtain ⟨rule, -, hrule⟩ := Option.bind_eq_some_iff.1 (Except.ok.inj h)
        exact empty_of_eofToken hrule
      · rw [if_neg hempty] at h
        cases h
    · by_cases hempty : kept = ""
      · rw [if_pos hempty] at h
        cases h
      · rw [if_neg hempty] at h
        cases h

/-- So does a failure of the stream. -/
theorem placed_failure (hk : k.AtPlace tabWidth text) (hm : m ≤ k.caret.count) (e : StreamError) :
    (k.failure tabWidth e).Placed tabWidth text m := by
  have hcount : (k.consume tabWidth k.rest.length).caret.count = _ :=
    Cursor.count_consume (Nat.le_refl _)
  refine ⟨hk.consume (Nat.le_refl _), ?_, fun token h => (nomatch h), fun token h => (nomatch h),
    fun info h => (nomatch h)⟩
  rw [hcount]
  exact Nat.le_add_right_of_le hm

end Lexicon

/-! ### Lexers -/

namespace Lexer

variable {σ : Type} [CharStream σ] {At : σ → List Char → List Char → Prop}
  {final : Except StreamError (Option Char)} {options : Options} {c : Compilation} {lx : Lexer σ}
  {stream : σ} {cursor : Cursor}

/-- A run of matches ends at a place, with a result that is placed. The induction is on the
matches, and carries the text that is kept. -/
theorem placed_run (hAt : Steady final At) (hc : compile lexicon options = .ok c)
    (htab : 1 ≤ tabWidth)
    (hs : lx.Stands c.tables At tabWidth lexicon.states.length stream cursor)
    (hk : cursor.AtPlace tabWidth text) (hended : cursor.ended = false) (hm : m ≤ s)
    (hkept : Kept tabWidth text s cursor.caret.count kept first) :
    ∃ cursor', (lx.run stream kept first).2.1.Stands c.tables At tabWidth lexicon.states.length
        (lx.run stream kept first).2.2 cursor' ∧
      (Outcome.finish (lx.run stream kept first).1 cursor').Placed tabWidth text m := by
  have hplaced : ∀ {lx : Lexer σ} {stream : σ} {cursor : Cursor} {kept : String} {first : Pos}
      {s : Nat}, lx.Stands c.tables At tabWidth lexicon.states.length stream cursor →
      cursor.AtPlace tabWidth text → cursor.ended = false → m ≤ s →
      Kept tabWidth text s cursor.caret.count kept first →
      ∃ o, Simulates c.tables At tabWidth lexicon.states.length (lx.advance stream kept first) o ∧
        o.Placed tabWidth text m := by
    intro lx stream cursor kept first s hs hk hended hm hkept
    obtain ⟨o, hsimulates, ⟨hturn, -⟩ | ⟨e, -, rfl, -⟩⟩ := turn_or_fail hAt hc hs kept first
    · exact ⟨o, hsimulates, hturn.placed htab hk hended hm hkept⟩
    · exact ⟨_, hsimulates, Lexicon.placed_failure hk (Nat.le_trans hm hkept.le) e⟩
  -- The induction is on the turns of the call. What one turn keeps begins at the same place or, if
  -- something was dropped, at a later one.
  fun_induction run lx stream kept first generalizing cursor s with
  | case1 lx stream kept first result lx' stream' hadvance =>
    obtain ⟨o, hsimulates, ho⟩ := hplaced hs hk hended hm hkept
    rw [hadvance] at hsimulates
    cases o with
    | next cursor' kept' first' => cases hsimulates
    | finish result' cursor' =>
      obtain ⟨rfl, hstands⟩ := hsimulates
      exact ⟨cursor', hstands, ho⟩
  | case2 lx stream kept first lx' stream' kept' first' hadvance _ ih =>
    obtain ⟨o, hsimulates, ho⟩ := hplaced hs hk hended hm hkept
    rw [hadvance] at hsimulates
    cases o with
    | finish result cursor' => cases hsimulates
    | next cursor' kept'' first'' =>
      obtain ⟨rfl, rfl, hstands⟩ := hsimulates
      obtain ⟨hk', hended', s', hm', hkept'⟩ := ho
      exact ih hstands hk' hended' hm' hkept'

/-- A call ends at a place, with a result that is placed. -/
theorem placed_call (hAt : Steady final At) (hc : compile lexicon options = .ok c)
    (htab : 1 ≤ tabWidth) (hs : lx.Holds c.tables At tabWidth lexicon.states.length cursor)
    (hk : cursor.AtPlace tabWidth text) :
    ∃ cursor', lx.nextToken.2.Holds c.tables At tabWidth lexicon.states.length cursor' ∧
      (Outcome.finish lx.nextToken.1 cursor').Placed tabWidth text cursor.caret.count := by
  obtain ⟨stream, hinput, hs⟩ := hs
  have hstands := hs.withInput lx.input none
  by_cases heos : lx.isEos = true
  · rw [nextToken_of_ended lx hinput heos]
    exact ⟨cursor, ⟨stream, hinput, hstands⟩, hk, Nat.le_refl _, fun token h => (nomatch h),
      fun token h => (nomatch h), fun info h => (nomatch h)⟩
  · have hended : cursor.ended = false := hs.isEos.symm.trans (Bool.eq_false_iff.2 heos)
    -- No text is kept where a call begins.
    have hkept : Kept tabWidth text cursor.caret.count cursor.caret.count "" lx.caret.pos := by
      refine ⟨Nat.le_refl _, ?_, ?_⟩
      · rw [List.drop_eq_nil_of_le (List.length_take_le ..)]
        rfl
      · rw [hs.caret, ← hk.caret_eq]
    obtain ⟨cursor', hafter, hplaced⟩ :=
      placed_run hAt hc htab hstands hk hended (Nat.le_refl _) hkept
    rw [nextToken_of_attached lx hinput heos rfl]
    exact ⟨cursor', ⟨_, rfl, hafter.withInput _ _⟩, hplaced⟩

/-- Any calls end at a place, and never go back. -/
theorem placed_proceed (hAt : Steady final At) (hc : compile lexicon options = .ok c)
    (htab : 1 ≤ tabWidth) {requests : List Request}
    (hrequests : ∀ i, Request.enter i ∈ requests → i < lexicon.states.length)
    (hs : lx.Holds c.tables At tabWidth lexicon.states.length cursor)
    (hk : cursor.AtPlace tabWidth text) :
    ∃ cursor', (lx.proceed requests).Holds c.tables At tabWidth lexicon.states.length cursor' ∧
      cursor'.AtPlace tabWidth text ∧ cursor.caret.count ≤ cursor'.caret.count := by
  induction requests generalizing lx cursor with
  | nil => exact ⟨cursor, hs, hk, Nat.le_refl _⟩
  | cons request requests ih =>
    have hlater : ∀ i, Request.enter i ∈ requests → i < lexicon.states.length :=
      fun i hi => hrequests i (List.mem_cons_of_mem _ hi)
    cases request with
    | next =>
      obtain ⟨cursor₁, hs₁, hk₁, hle₁, -⟩ := placed_call hAt hc htab hs hk
      obtain ⟨cursor₂, hs₂, hk₂, hle₂⟩ := ih hlater hs₁ hk₁
      exact ⟨cursor₂, hs₂, hk₂, Nat.le_trans hle₁ hle₂⟩
    | enter i =>
      have hi := hrequests i List.mem_cons_self
      have hplace : Cursor.AtPlace tabWidth text { cursor with lexState := i } :=
        ⟨hk.le, hk.caret_eq, hk.rest_eq⟩
      have hrest := ih hlater (hs.enter hi) hplace
      exact hrest

/-- Requests one after another are made one after another. -/
theorem proceed_append (lx : Lexer σ) (earlier later : List Request) :
    lx.proceed (earlier ++ later) = (lx.proceed earlier).proceed later := by
  induction earlier generalizing lx with
  | nil => rfl
  | cons request earlier ih =>
    cases request with
    | next => exact ih lx.nextToken.2
    | enter i => exact ih (lx.setLexState i)

/-- A turn keeps the width of a tab. -/
theorem tabWidth_advance (lx : Lexer σ) (stream : σ) (kept : String) (first : Pos) :
    (advanced (lx.advance stream kept first)).tabWidth = lx.tabWidth := by
  cases hentry : lx.tables.lexStates[lx.lexState]? with
  | none => rw [advance_of_missing hentry, advanced]
  | some entry =>
    obtain ⟨_, _, _, heq⟩ := exists_advanced_settle lx entry
      (lx.scan (CharStream.beginToken stream) entry) kept first
    rw [advance_of_entry hentry, heq]

/-- The turns of a call keep the width of a tab. -/
theorem tabWidth_run (lx : Lexer σ) (stream : σ) (kept : String) (first : Pos) :
    (lx.run stream kept first).2.1.tabWidth = lx.tabWidth := by
  fun_induction run lx stream kept first with
  | case1 lx stream kept first result lx' stream' hadvance =>
    have h := tabWidth_advance lx stream kept first
    rw [hadvance] at h
    exact h
  | case2 lx stream kept first lx' stream' kept' first' hadvance _ ih =>
    have h := tabWidth_advance lx stream kept first
    rw [hadvance] at h
    exact ih.trans h

/-- A call keeps the width of a tab. -/
theorem tabWidth_nextToken (lx : Lexer σ) : lx.nextToken.2.tabWidth = lx.tabWidth := by
  cases hinput : lx.input with
  | none => rw [nextToken_of_detached lx hinput]
  | some stream =>
    by_cases heos : lx.isEos = true
    · rw [nextToken_of_ended lx hinput heos]
    · rw [nextToken_of_attached lx hinput heos rfl]
      exact tabWidth_run ..

/-- Tab stops are at least one column apart. -/
theorem Built.one_le_tabWidth {tables : Tables} (h : lx.Built tables) : 1 ≤ lx.tabWidth := by
  induction h with
  | ofTables => exact Nat.le_add_left ..
  | attach _ input ih => exact ih
  | detach _ ih => exact ih
  | setLexState _ lexState ih => exact ih
  | setTabWidth _ width ih => exact Nat.le_max_right ..
  | skipChar _ c ih => exact ih
  | nextToken _ ih =>
    rw [tabWidth_nextToken]
    exact ih

/-- A token that covers characters does not begin before one that was returned earlier ends. -/
theorem not_before_of_placed {n' m' : Nat} {ended : Bool} {token token' : Token}
    (htab : 1 ≤ tabWidth) (h : Result.Placed tabWidth text m n ended (.ok (some token)))
    (hle : n ≤ m') (h' : Result.Placed tabWidth text m' n' false (.ok (some token'))) :
    token'.span.first.before token.span.last = false := by
  obtain ⟨s, hs, hcovers'⟩ := h'.token token' rfl rfl
  rw [hcovers'.first_eq]
  cases ended with
  | false =>
    obtain ⟨_, -, hcovers⟩ := h.token token rfl rfl
    rw [hcovers.last_eq]
    exact Caret.not_before_behind htab (by omega)
  | true =>
    -- The span of the token for the end of the input ends before all lines.
    rw [(h.eofToken token rfl rfl).2, Pos.before_eq_false_iff]
    exact Or.inl (Caret.proper_behind ..).line

/-- A later call, behind any calls in between, returns no token that begins before an earlier one
ends. -/
theorem not_before_of_calls (hAt : Steady final At) (hc : compile lexicon options = .ok c)
    (htab : 1 ≤ tabWidth) (hs : lx.Holds c.tables At tabWidth lexicon.states.length cursor)
    (hk : cursor.AtPlace tabWidth text) {requests : List Request}
    (hrequests : ∀ i, Request.enter i ∈ requests → i < lexicon.states.length)
    {lx' : Lexer σ} (hlx' : lx.nextToken.2.proceed requests = lx') {token token' : Token}
    (htoken : lx.nextToken.1 = .ok (some token)) (htoken' : lx'.nextToken.1 = .ok (some token'))
    (hended : lx'.nextToken.2.isEos = false) :
    token'.span.first.before token.span.last = false := by
  obtain ⟨cursor₁, hs₁, hk₁, -, hresult⟩ := placed_call hAt hc htab hs hk
  obtain ⟨cursor₂, hs₂, hk₂, hle⟩ := placed_proceed hAt hc htab hrequests hs₁ hk₁
  rw [hlx'] at hs₂
  obtain ⟨cursor₃, ⟨_, _, hstands⟩, -, -, hresult'⟩ := placed_call hAt hc htab hs₂ hk₂
  rw [htoken] at hresult
  rw [htoken', ← hstands.isEos, hended] at hresult'
  exact not_before_of_placed htab hresult hle hresult'

variable {lx : Lexer Reader} {r : Reader}

/-- After any calls the caret stands where the consumed characters lead, which are those that the
reader does not give any more. A token covers the last of them, with text that was kept before, and
does not begin before a token that was returned earlier ends. An unrecognized character is the last
one. -/
theorem positions_of_text (hc : compile lexicon options = .ok c) (hlx : lx.Built c.tables)
    (hr : r.Reachable) {requests : List Request}
    (hrequests : ∀ i, Request.enter i ∈ requests → i < lexicon.states.length)
    {before after : Lexer Reader} (hbefore : (lx.attach r).proceed requests = before)
    (hafter : before.nextToken.2 = after) :
    after.caret = .behind lx.tabWidth (CharStream.text r) after.caret.count ∧
    (∃ r', after.input = some r' ∧
      CharStream.text r' = (CharStream.text r).drop after.caret.count) ∧
    after.caret.count ≤ (CharStream.text r).length ∧ after.caret.Proper ∧
    Result.Placed lx.tabWidth (CharStream.text r) before.caret.count after.caret.count after.isEos
      before.nextToken.1 ∧
    ∀ earlier later token token', requests = earlier ++ .next :: later →
      ((lx.attach r).proceed earlier).nextToken.1 = .ok (some token) →
      before.nextToken.1 = .ok (some token') → after.isEos = false →
        token'.span.first.before token.span.last = false := by
  have htab := hlx.one_le_tabWidth
  obtain ⟨text, final, taken, rest, htracked, -⟩ := hr.exists_tracked
  have hAt := Reader.steady_tracked text htracked.along.ne_some
  have htext : CharStream.text r = rest := hAt.text_eq htracked
  have hstart := holds_attach_of_at hc lx hlx htracked
  have hplace : Cursor.AtPlace lx.tabWidth rest ⟨0, .start, rest, false⟩ :=
    ⟨Nat.zero_le _, rfl, rfl⟩
  -- The lexer stands with a cursor before the last call, and with one behind it.
  obtain ⟨cursor₁, hs₁, hk₁, -⟩ := placed_proceed hAt hc htab hrequests hstart hplace
  rw [hbefore] at hs₁
  obtain ⟨cursor₂, hs₂, hk₂, -, hresult⟩ := placed_call hAt hc htab hs₁ hk₁
  rw [hafter] at hs₂
  obtain ⟨_, _, hstands₁⟩ := hs₁
  obtain ⟨stream, hinput, hstands₂⟩ := hs₂
  obtain ⟨_, hat⟩ := hstands₂.stream
  rw [htext, hstands₂.caret, hstands₁.caret]
  refine ⟨hk₂.caret_eq, ⟨stream, hinput, (hAt.text_eq hat).trans hk₂.rest_eq⟩, hk₂.le, ?_, ?_,
    fun earlier later token token' hsplit htoken htoken' hended => ?_⟩
  · rw [hk₂.caret_eq]
    exact Caret.proper_behind ..
  · rw [hstands₂.isEos]
    exact hresult
  · -- The two tokens are compared through the calls between them.
    subst hsplit
    obtain ⟨cursor₃, hs₃, hk₃, -⟩ := placed_proceed hAt hc htab
      (fun i hi => hrequests i (List.mem_append_left _ hi)) hstart hplace
    rw [proceed_append] at hbefore
    subst hafter
    exact not_before_of_calls hAt hc htab hs₃ hk₃
      (fun i hi => hrequests i (List.mem_append_right _ (List.mem_cons_of_mem _ hi))) hbefore htoken
      htoken' hended

/-- The caret of a lexer of the sample lexicon behind a word, a line feed and a tab. -/
theorem positions_of_text_words : ∃ k, compile Lexicon.words Options.quiet = .ok k ∧
    let first : Lexer Reader := (ofTables k.tables).attach { source := .ofString "abb\n\tab" }
    let last := first.nextToken.2.nextToken.2.nextToken.2
    last.caret = .behind 4 "abb\n\tab".toList last.caret.count ∧ last.caret.count ≤ 7 := by
  obtain ⟨k, hk⟩ := exists_compile rfl hasNoErrors_words rfl
  have htext := Reader.faithful.text_eq (Reader.at_ofString "abb\n\tab")
  have hrequests : ∀ i, Request.enter i ∈ [Request.next, Request.next] →
      i < Lexicon.words.states.length := by
    intro i hi
    simp only [List.mem_cons, List.not_mem_nil, reduceCtorEq, or_false] at hi
  obtain ⟨hcaret, -, hle, -⟩ :=
    positions_of_text hk .ofTables (.fresh (.ofString "abb\n\tab")) hrequests rfl rfl
  rw [htext] at hcaret hle
  exact ⟨k, hk, hcaret, hle⟩

end Lexer

end Lexwright

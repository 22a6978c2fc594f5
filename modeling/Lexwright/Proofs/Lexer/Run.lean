import Lexwright.Proofs.Lexer.Reference
import Lexwright.Proofs.Lexer.Scan

/-!
# `Lexwright.Proofs.Lexer.Run`: a lexer returns what the reference returns

* `Scan.Has`: what a scan has read, with its carets. `has_scanFrom` keeps it.
* `Lexer.Stands`: the lexer and its stream stand where the cursor of the reference stands.
* `Cursor.Fails`: the result when the stream fails behind its text.
* `Lexer.Scanned`: a lexer that stands at the cursor has scanned. What follows is one of
  `Scanned.matched`, `Scanned.ended`, `Scanned.unrecognized` and `Scanned.failed`.
* `Lexer.turn_or_fail`: one match of the lexer is one turn of the reference, and they stand at the
  same place again, unless the stream fails.
* `Lexer.reads_or_fail`, `Lexer.call_or_fail`: the same for a run of matches, and for a call.
* `Lexer.respond_eq_iff`: the results of any calls on a text are those of the reference.
-/

set_option autoImplicit false

namespace Lexwright

open CharStream (Faithful Steady)

variable {σ : Type} [CharStream σ] {At : σ → List Char → List Char → Prop}
  {final : Except StreamError (Option Char)} {t : Tables} {tabWidth n : Nat} {c : Char}
  {w v taken rest : List Char} {start : Caret}

/-! ### What a scan has read -/

/-- The last character of a word is moved over last. -/
theorem Caret.advanceAll_concat (k : Caret) (w : List Char) (c : Char) :
    k.advanceAll tabWidth (w ++ [c]) = (k.advanceAll tabWidth w).advance tabWidth c := by
  unfold advanceAll
  rw [List.foldl_append]
  rfl

/-- The scan began at the caret and has read the text; its longest match is a prefix of it. -/
structure Scan.Has (tabWidth : Nat) (start : Caret) (w : List Char) (x : Scan σ) : Prop where
  read : x.read = w.length
  caret : x.caret = start.advanceAll tabWidth w
  first : x.first = w.head?.map fun c => (c, start.advance tabWidth c)
  best : ∀ m ∈ x.best, 1 ≤ m.length ∧ m.length ≤ w.length ∧
    m.lastPos = (start.advanceAll tabWidth (w.take (m.length - 1))).pos ∧
    m.after = start.advanceAll tabWidth (w.take m.length)

omit [CharStream σ] in
/-- A further character belongs to what the scan has read. -/
theorem Scan.Has.next {x : Scan σ} (h : x.Has tabWidth start w) (active : Array Nat) (stream : σ)
    (c : Char) : (x.next t tabWidth active stream c).1.Has tabWidth start (w ++ [c]) := by
  have hlength : (w ++ [c]).length = w.length + 1 := by
    rw [List.length_append, List.length_singleton]
  rcases hstep : t.step x.marks active c with ⟨found, rule⟩
  unfold Scan.next
  rw [hstep]
  refine ⟨?_, ?_, ?_, fun m hm => ?_⟩
  · rw [hlength, ← h.read]
  · rw [Caret.advanceAll_concat, ← h.caret]
  · show x.first.or (some (c, x.caret.advance tabWidth c)) = _
    rw [h.first, h.caret]
    cases w with
    | nil => rfl
    | cons d w => rfl
  · rw [hlength]
    cases rule with
    | none =>
      -- An earlier match is a prefix of what was read before.
      obtain ⟨hpos, hle, hlast, hafter⟩ := h.best m hm
      rw [List.take_append_of_le_length hle, List.take_append_of_le_length (by omega)]
      exact ⟨hpos, by omega, hlast, hafter⟩
    | some r =>
      cases hm
      show 1 ≤ x.read + 1 ∧ x.read + 1 ≤ w.length + 1 ∧
        x.caret.pos = (start.advanceAll tabWidth ((w ++ [c]).take x.read)).pos ∧
        x.caret.advance tabWidth c = start.advanceAll tabWidth ((w ++ [c]).take (x.read + 1))
      rw [h.read, List.take_left, ← hlength, List.take_length, Caret.advanceAll_concat, h.caret]
      exact ⟨by omega, Nat.le_refl _, rfl, rfl⟩

/-- A scan reads a prefix of what is left, and at least one character if there is one. It fails only
if everything was read. -/
theorem has_scanFrom (hAt : Steady final At) (x : Scan σ) (active : Array Nat)
    (hx : x.Has tabWidth start w) (hstream : At x.stream taken rest) :
    ∃ v later, rest = v ++ later ∧ (rest ≠ [] → v ≠ []) ∧
      At (scanFrom t tabWidth x active).stream (v.reverse ++ taken) later ∧
      (scanFrom t tabWidth x active).Has tabWidth start (w ++ v) ∧
      ((scanFrom t tabWidth x active).error = x.error ∧ (v = [] → final = .ok none) ∨
        later = [] ∧ ∃ e, final = .error e ∧ (scanFrom t tabWidth x active).error = some e) := by
  -- The induction is on the reads of the scan. It ends with the text, with a failure, or when no
  -- state is active.
  fun_induction scanFrom t tabWidth x active generalizing w taken rest with
  | case1 x active stream hread =>
    obtain ⟨rfl, hfinal, hs'⟩ := hAt.eq_nil_of_end hstream hread
    rw [← List.append_nil w] at hx
    exact ⟨[], [], rfl, fun h => absurd rfl h, hs', ⟨hx.read, hx.caret, hx.first, hx.best⟩,
      Or.inl ⟨rfl, fun _ => hfinal⟩⟩
  | case2 x active e stream hread =>
    obtain ⟨rfl, hfinal, hs'⟩ := hAt.eq_nil_of_error hstream hread
    rw [← List.append_nil w] at hx
    exact ⟨[], [], rfl, fun h => absurd rfl h, hs', ⟨hx.read, hx.caret, hx.first, hx.best⟩,
      Or.inr ⟨rfl, e, hfinal, rfl⟩⟩
  | case3 x active c stream hread =>
    obtain ⟨later, rfl, hs'⟩ := hAt.exists_of_read hstream hread
    exact ⟨[c], later, rfl, fun _ => List.cons_ne_nil _ _, hs', hx.next active stream c,
      Or.inl ⟨rfl, fun h => absurd h (List.cons_ne_nil _ _)⟩⟩
  | case4 x active c stream hread _ _ _ =>
    rename_i ih
    obtain ⟨rest', rfl, hs'⟩ := hAt.exists_of_read hstream hread
    obtain ⟨v, later, rfl, -, hlater, hhas, herror⟩ := ih (hx.next active stream c) hs'
    refine ⟨c :: v, later, rfl, fun _ => List.cons_ne_nil _ _, ?_, ?_, ?_⟩
    · rw [List.reverse_cons, List.append_assoc]
      exact hlater
    · rw [List.append_assoc] at hhas
      exact hhas
    · exact herror.imp (fun h => ⟨h.1, fun h => absurd h (List.cons_ne_nil _ _)⟩) id

/-! ### Failures of the stream -/

/-- The stream fails when everything that is left was read. -/
def Cursor.failure (tabWidth : Nat) (k : Cursor) (e : StreamError) : Outcome :=
  let after := k.consume tabWidth k.rest.length
  .finish (.error (.stream after.caret.count e)) after

/-- The result is the failure of the stream, behind all the characters of the text. Everything was
read, but the end was not reached. -/
structure Cursor.Fails (k : Cursor) (e : StreamError) (result : Result) (after : Cursor) : Prop where
  result_eq : result = .error (.stream k.total e)
  rest_eq : after.rest = []
  total_eq : after.total = k.total
  ended_eq : after.ended = k.ended

namespace Cursor

variable {k k' after : Cursor} {e : StreamError} {result : Result}

/-- The outcome that is a failure fails. -/
theorem Fails.of_failure (h : .finish result after = k.failure tabWidth e) :
    k.Fails e result after := by
  cases h
  have htotal := k.total_consume tabWidth k.rest.length
  have hrest : (k.consume tabWidth k.rest.length).rest = [] := List.drop_length
  refine ⟨?_, hrest, htotal, rfl⟩
  rw [← htotal, total, hrest, List.length_nil, Nat.add_zero]

/-- A cursor in the same text fails in the same way. -/
theorem Fails.of_total_eq (h : k'.Fails e result after) (htotal : k'.total = k.total)
    (hended : k'.ended = k.ended) : k.Fails e result after :=
  ⟨htotal ▸ h.result_eq, h.rest_eq, h.total_eq.trans htotal, h.ended_eq.trans hended⟩

end Cursor

/-! ### Lexers and cursors -/

namespace Lexer

/-- The lexer and its stream stand where the cursor stands. -/
structure Stands (tables : Tables) (At : σ → List Char → List Char → Prop) (tabWidth states : Nat)
    (lx : Lexer σ) (stream : σ) (k : Cursor) : Prop where
  ready : lx.Ready tables
  tabWidth_eq : lx.tabWidth = tabWidth
  lexState : lx.lexState = k.lexState
  caret : lx.caret = k.caret
  isEos : lx.isEos = k.ended
  stream : ∃ taken, At stream taken k.rest
  lexState_lt : k.lexState < states

/-- What was read is put back up to a prefix. -/
theorem exists_putBack (hAt : Steady final At) {stream : σ} (hstream : At stream v.reverse rest)
    (n count : Nat) :
    ∃ s, putBack stream (v.length - n) count = .ok s ∧
      At s (v.take n).reverse (v.drop n ++ rest) := by
  -- What was read last comes first in what was taken, and goes back first.
  have hsplit : v.reverse = (v.drop n).reverse ++ (v.take n).reverse := by
    rw [← List.reverse_append, List.take_append_drop]
  have hback : v.length - n = (v.drop n).reverse.length := by
    rw [List.length_reverse, List.length_drop]
  unfold putBack
  by_cases hzero : v.length - n = 0
  · rw [if_pos hzero]
    have hle : v.length ≤ n := by omega
    rw [List.take_of_length_le hle, List.drop_eq_nil_of_le hle]
    exact ⟨stream, rfl, hstream⟩
  · rw [if_neg hzero]
    rw [hsplit] at hstream
    obtain ⟨s, hbackup, hs⟩ := hAt.backup hstream
    rw [← hback] at hbackup
    rw [hbackup]
    rw [List.reverse_reverse] at hs
    exact ⟨s, rfl, hs⟩

variable {lexicon : Lexicon} {options : Options} {k : Compilation} {cursor : Cursor}
  {lx : Lexer σ} {stream : σ} {kept : String} {first : Pos}

/-- The lexer did what the outcome says, and stands where it says. -/
def Simulates (tables : Tables) (At : σ → List Char → List Char → Prop) (tabWidth states : Nat) :
    Advance σ → Outcome → Prop
  | .finish result lx stream, .finish result' cursor =>
    result = result' ∧ lx.Stands tables At tabWidth states stream cursor
  | .next lx stream kept first, .next cursor kept' first' =>
    kept = kept' ∧ first = first' ∧ lx.Stands tables At tabWidth states stream cursor
  | _, _ => False

/-- The lexical state after a match exists. -/
theorem lexState_afterMatch_lt {rule : Rule} (h : cursor.lexState < lexicon.states.length) :
    (lexicon.afterMatch tabWidth cursor rule n).lexState < lexicon.states.length := by
  show (rule.nextState.bind fun name =>
    lexicon.states.findIdx? (·.name = name)).getD cursor.lexState < lexicon.states.length
  cases hnext : (rule.nextState.bind fun name => lexicon.states.findIdx? (·.name = name)) with
  | none => exact h
  | some j =>
    obtain ⟨name, _, hj⟩ := Option.bind_eq_some_iff.1 hnext
    exact (List.findIdx?_eq_some_iff_getElem.1 hj).1

/-- A match is taken as its rule asks for. -/
theorem simulates_take (hAt : Steady final At) (hk : compile lexicon options = .ok k) {m : Match}
    (hready : lx.Ready k.tables) (htab : lx.tabWidth = tabWidth)
    (hlex : lx.lexState = cursor.lexState) (heos : lx.isEos = cursor.ended)
    (hlt : cursor.lexState < lexicon.states.length)
    (hselects : lexicon.Selects cursor.lexState cursor.rest m.rule m.length)
    (hlast : m.lastPos = (cursor.consume tabWidth (m.length - 1)).caret.pos)
    (hafter : m.after = (cursor.consume tabWidth m.length).caret)
    (hat : At stream (cursor.rest.take m.length).reverse (cursor.rest.drop m.length))
    (kept : String) (first : Pos) :
    ∃ rule, lexicon.Longest cursor rule m.length ∧
      Simulates k.tables At tabWidth lexicon.states.length (lx.take stream kept first m)
        (lexicon.onMatch tabWidth cursor kept first rule m.length) := by
  obtain ⟨rule, hlexeme, -⟩ := hselects.first
  refine ⟨rule, ⟨m.rule, hselects, hlexeme.numbered⟩, ?_⟩
  have hterminal : lx.tables.terminals.getD m.rule default =
      ⟨rule.kind, rule.category, rule.nextState.bind fun name =>
        lexicon.states.findIdx? (·.name = name)⟩ := by
    rw [hready.tables_eq, Array.getD_eq_getD_getElem?, exists_terminal hk hlexeme.numbered]
    rfl
  have himage : CharStream.image stream = String.ofList (cursor.rest.take m.length) := by
    rw [hAt.image hat, List.reverse_reverse]
  -- Whatever the category is, the match is consumed and the lexical state is entered.
  have hstands : Stands k.tables At tabWidth lexicon.states.length
      { lx with caret := m.after, lexState := (rule.nextState.bind fun name =>
        lexicon.states.findIdx? (·.name = name)).getD lx.lexState } stream
      (lexicon.afterMatch tabWidth cursor rule m.length) :=
    ⟨⟨hready.tables_eq, hready.sound⟩, htab, by rw [hlex]; rfl, hafter, heos, ⟨_, hat⟩,
      lexState_afterMatch_lt hlt⟩
  unfold take Lexicon.onMatch
  rw [hterminal, himage, hlast]
  simp only
  cases rule.category with
  | token => exact ⟨rfl, hstands⟩
  | special => exact ⟨rfl, hstands⟩
  | skip => exact ⟨rfl, congrArg Caret.pos hafter, hstands⟩
  | more => exact ⟨rfl, rfl, hstands⟩

omit [CharStream σ] in
/-- The tables know the rule for the end of the input, and the token that it asks for. -/
theorem exists_eofRule (hk : compile lexicon options = .ok k) {entry : LexEntry}
    (hs : lx.Stands k.tables At tabWidth lexicon.states.length stream cursor)
    (hentry : k.tables.lexStates[cursor.lexState]? = some entry) :
    ∃ eof : Option Rule, (∀ rule, eof = some rule ↔ lexicon.EofRule cursor.lexState rule) ∧
      (do
        let rule ← entry.eofRule
        let terminal ← lx.tables.terminals[rule]?
        let channel ← terminal.category.channel?
        return (⟨terminal.kind, channel, "", .empty⟩ : Token)) = eof.bind Lexicon.eofToken := by
  obtain ⟨himplements, -⟩ := serves_of_compile hk
  -- The entry of the tables has the rule that the automaton has noted for the lexical state.
  obtain ⟨info, entry', hinfo, hentry', heof, -⟩ := exists_entry hk hs.ready hs.lexState_lt
  rw [hentry] at hentry'
  cases hentry'
  cases hrule : entry.eofRule with
  | none =>
    refine ⟨none, fun rule => iff_of_false (fun h => nomatch h) fun ⟨id, hid, hisEof⟩ => ?_, rfl⟩
    have := (himplements.eofRule hinfo).2 ⟨rule, hid, hisEof⟩
    rw [← heof, hrule] at this
    cases this
  | some id =>
    rw [hrule] at heof
    obtain ⟨rule, hid, hisEof⟩ := (himplements.eofRule hinfo).1 heof.symm
    refine ⟨some rule, fun rule' => ⟨fun h => ?_, fun ⟨id', hid', hisEof'⟩ => ?_⟩, ?_⟩
    · cases h
      exact ⟨id, hid, hisEof⟩
    · have := (himplements.eofRule hinfo).2 ⟨rule', hid', hisEof'⟩
      rw [← heof] at this
      cases this
      rw [hid] at hid'
      cases hid'
      rfl
    · rw [Option.bind_some, hs.ready.tables_eq]
      show (k.tables.terminals[id]? >>= _) = _
      rw [exists_terminal hk hid]
      unfold Lexicon.eofToken
      cases rule.category <;> rfl

omit [CharStream σ] in
/-- The end of the text is met as the reference meets it. -/
theorem simulates_finishInput (hk : compile lexicon options = .ok k) {entry : LexEntry}
    (hs : lx.Stands k.tables At tabWidth lexicon.states.length stream cursor)
    (hentry : k.tables.lexStates[cursor.lexState]? = some entry) (kept : String) :
    ∃ eof, (∀ rule, eof = some rule ↔ lexicon.EofRule cursor.lexState rule) ∧
      Simulates k.tables At tabWidth lexicon.states.length
        (lx.finishInput stream kept entry) (Lexicon.onEnd cursor kept eof) := by
  obtain ⟨eof, heof, htoken⟩ := exists_eofRule hk hs hentry
  have hstands : Stands k.tables At tabWidth lexicon.states.length { lx with isEos := true }
      stream { cursor with ended := true } :=
    ⟨⟨hs.ready.tables_eq, hs.ready.sound⟩, hs.tabWidth_eq, hs.lexState, hs.caret, rfl, hs.stream,
      hs.lexState_lt⟩
  refine ⟨eof, heof, ?_⟩
  unfold finishInput Lexicon.onEnd
  simp only
  by_cases hkept : kept = ""
  · rw [if_pos hkept, if_pos (by rw [hkept]; rfl), htoken]
    exact ⟨rfl, hstands⟩
  · have hsome : ¬kept.isEmpty = true := fun h =>
      hkept (String.utf8ByteSize_eq_zero_iff.1 (eq_of_beq h))
    rw [if_neg hkept, if_neg hsome]
    refine ⟨?_, hstands⟩
    unfold errorInfo
    rw [hs.caret, hs.lexState]

/-- What the scan of a lexer has read. -/
theorem has_scan (hAt : Steady final At) {tables : Tables} {states : Nat}
    (hs : lx.Stands tables At tabWidth states stream cursor) (entry : LexEntry) :
    ∃ v later, cursor.rest = v ++ later ∧ (cursor.rest ≠ [] → v ≠ []) ∧
      At (lx.scan (CharStream.beginToken stream) entry).stream v.reverse later ∧
      (lx.scan (CharStream.beginToken stream) entry).Has tabWidth cursor.caret v ∧
      ((lx.scan (CharStream.beginToken stream) entry).error = none ∧ (v = [] → final = .ok none) ∨
        later = [] ∧ ∃ e, final = .error e ∧
          (lx.scan (CharStream.beginToken stream) entry).error = some e) := by
  obtain ⟨taken, hat⟩ := hs.stream
  obtain ⟨v, later, hrest, hnonempty, hstream, hhas, herror⟩ := @has_scanFrom σ _ At final lx.tables
    lx.tabWidth [] [] cursor.rest cursor.caret hAt
    { stream := CharStream.beginToken stream, caret := lx.caret, marks := lx.marks }
    ((entry.startRow.map lx.tables.row).getD #[])
    ⟨rfl, hs.caret, rfl, fun m hm => nomatch hm⟩ (hAt.beginToken hat)
  rw [List.append_nil] at hstream
  have hhas : (lx.scan (CharStream.beginToken stream) entry).Has lx.tabWidth cursor.caret v := hhas
  rw [hs.tabWidth_eq] at hhas
  exact ⟨v, later, hrest, hnonempty, hstream, hhas, herror⟩

section Advance

variable {entry : LexEntry} {x : Scan σ} {s : σ}

/-- Where the scan has a match, the turn takes it after moving back behind it. -/
theorem advance_of_best {m : Match} (hentry : lx.tables.lexStates[lx.lexState]? = some entry)
    (hx : lx.scan (CharStream.beginToken stream) entry = x) (hbest : x.best = some m)
    (hput : putBack x.stream (x.read - m.length) x.caret.count = .ok s) :
    lx.advance stream kept first =
      take { lx with caret := x.caret, marks := x.marks } s kept first m := by
  subst hx
  rw [advance_of_entry hentry]
  unfold settle
  simp only [hbest, hput]

/-- Where the stream fails before any match, the turn ends with its error. -/
theorem advance_of_error {e : StreamError} (hentry : lx.tables.lexStates[lx.lexState]? = some entry)
    (hx : lx.scan (CharStream.beginToken stream) entry = x) (hbest : x.best = none)
    (herror : x.error = some e) :
    lx.advance stream kept first =
      .finish (.error (.stream x.caret.count e)) { lx with caret := x.caret, marks := x.marks }
        x.stream := by
  subst hx
  rw [advance_of_entry hentry]
  unfold settle
  simp only [hbest, herror]

/-- Where nothing was read, the turn finishes the input. -/
theorem advance_of_end (hentry : lx.tables.lexStates[lx.lexState]? = some entry)
    (hx : lx.scan (CharStream.beginToken stream) entry = x) (hbest : x.best = none)
    (herror : x.error = none) (hfirst : x.first = none) :
    lx.advance stream kept first =
      finishInput { lx with caret := x.caret, marks := x.marks } x.stream kept entry := by
  subst hx
  rw [advance_of_entry hentry]
  unfold settle
  simp only [hbest, herror, hfirst]

/-- Where characters match nothing, the turn drops the first and moves back behind it. -/
theorem advance_of_unrecognized {after : Caret}
    (hentry : lx.tables.lexStates[lx.lexState]? = some entry)
    (hx : lx.scan (CharStream.beginToken stream) entry = x) (hbest : x.best = none)
    (herror : x.error = none) (hfirst : x.first = some (c, after))
    (hput : putBack x.stream (x.read - 1) x.caret.count = .ok s) :
    lx.advance stream kept first =
      drop { lx with caret := x.caret, marks := x.marks } s kept lx.caret c after := by
  subst hx
  rw [advance_of_entry hentry]
  unfold settle
  simp only [hbest, herror, hfirst, hput]

end Advance

/-! ### One match -/

/-- A lexer that stands at the cursor has scanned: what the scan read, `v`, lies before what is
`later` in the text, and its choice is that of the reference. -/
structure Scanned (lexicon : Lexicon) (tables : Tables) (At : σ → List Char → List Char → Prop)
    (tabWidth : Nat) (lx : Lexer σ) (stream : σ) (cursor : Cursor) (entry : LexEntry) (x : Scan σ)
    (v later : List Char) : Prop where
  stands : lx.Stands tables At tabWidth lexicon.states.length stream cursor
  lexEntry : tables.lexStates[cursor.lexState]? = some entry
  scan_eq : lx.scan (CharStream.beginToken stream) entry = x
  rest_eq : cursor.rest = v ++ later
  stream : At x.stream v.reverse later
  has : x.Has tabWidth cursor.caret v
  ready : ∀ caret, Ready tables { lx with caret, marks := x.marks }
  chosen : lexicon.Chosen cursor.lexState cursor.rest x.choice

/-- A scan reads at least one character if there is one. It fails only if everything was read. -/
theorem exists_scanned (hAt : Steady final At) (hk : compile lexicon options = .ok k)
    (hs : lx.Stands k.tables At tabWidth lexicon.states.length stream cursor) :
    ∃ entry x v later, Scanned lexicon k.tables At tabWidth lx stream cursor entry x v later ∧
      (cursor.rest ≠ [] → v ≠ []) ∧
      (x.error = none ∧ (v = [] → final = .ok none) ∨
        later = [] ∧ ∃ e, final = .error e ∧ x.error = some e) := by
  obtain ⟨-, hserves⟩ := serves_of_compile hk
  obtain ⟨taken, hat⟩ := hs.stream
  obtain ⟨entry, hentry, hchosen⟩ :=
    chosen_scan hk hs.ready hs.lexState_lt (CharStream.beginToken stream)
  rw [hAt.text_eq (hAt.beginToken hat)] at hchosen
  obtain ⟨v, later, hrest, hnonempty, hstream, hhas, herror⟩ := has_scan hAt hs entry
  exact ⟨entry, _, v, later, ⟨hs, hentry, rfl, hrest, hstream, hhas,
    ready_scan hserves.fits hs.ready (CharStream.beginToken stream) entry, hchosen⟩, hnonempty,
    herror⟩

namespace Scanned

variable {entry : LexEntry} {x : Scan σ} {later : List Char} {e : StreamError}

/-- A scan starts from the entry of the state that the lexer is in. -/
theorem entry_eq (h : Scanned lexicon t At tabWidth lx stream cursor entry x v later) :
    lx.tables.lexStates[lx.lexState]? = some entry := by
  rw [h.stands.ready.tables_eq, h.stands.lexState, h.lexEntry]

/-- With its marks kept, the lexer stands wherever its caret and its stream are put. -/
theorem stands_at (h : Scanned lexicon t At tabWidth lx stream cursor entry x v later)
    (caret : Caret) {s : σ} (hs : At s taken rest) :
    Stands t At tabWidth lexicon.states.length { lx with caret, marks := x.marks } s
      { cursor with caret, rest } :=
  ⟨h.ready caret, h.stands.tabWidth_eq, h.stands.lexState, rfl, h.stands.isEos, ⟨_, hs⟩,
    h.stands.lexState_lt⟩

/-- The match of a scan is the one that maximal munch selects. -/
theorem selects (h : Scanned lexicon t At tabWidth lx stream cursor entry x v later) {m : Match}
    (hbest : x.best = some m) :
    lexicon.Selects cursor.lexState cursor.rest m.rule m.length := by
  refine (h.chosen m.rule m.length).1 ?_
  unfold Scan.choice
  rw [hbest]
  rfl

/-- Without a match of the scan no rule has one. -/
theorem not_longest (h : Scanned lexicon t At tabWidth lx stream cursor entry x v later)
    (hbest : x.best = none) (rule : Rule) (n : Nat) : ¬lexicon.Longest cursor rule n := by
  rintro ⟨id, hselects, -⟩
  refine h.chosen.eq_none_iff.1 ?_ id n hselects
  unfold Scan.choice
  rw [hbest]
  rfl

/-- The scan has a match: it is taken, and what was read behind it is put back. -/
theorem matched (h : Scanned lexicon k.tables At tabWidth lx stream cursor entry x v later)
    (hAt : Steady final At) (hk : compile lexicon options = .ok k) {m : Match}
    (hbest : x.best = some m) (kept : String) (first : Pos) :
    ∃ rule, lexicon.Longest cursor rule m.length ∧
      Simulates k.tables At tabWidth lexicon.states.length (lx.advance stream kept first)
        (lexicon.onMatch tabWidth cursor kept first rule m.length) := by
  obtain ⟨hpos, hle, hlast, hafter⟩ := h.has.best m hbest
  obtain ⟨s, hput, hback⟩ := exists_putBack hAt h.stream m.length x.caret.count
  rw [← h.has.read] at hput
  -- The match lies within what was read, so its carets are those of what was left.
  have htake : ∀ {n}, n ≤ v.length → cursor.rest.take n = v.take n := fun hn => by
    rw [h.rest_eq, List.take_append_of_le_length hn]
  have hdrop : cursor.rest.drop m.length = v.drop m.length ++ later := by
    rw [h.rest_eq, List.drop_append_of_le_length hle]
  rw [← htake (by omega)] at hlast
  rw [← htake hle] at hafter hback
  rw [← hdrop] at hback
  rw [advance_of_best h.entry_eq h.scan_eq hbest hput]
  exact simulates_take hAt hk (h.ready x.caret) h.stands.tabWidth_eq h.stands.lexState
    h.stands.isEos h.stands.lexState_lt (h.selects hbest) hlast hafter hback kept first

/-- The scan read nothing: the lexer is at the end of the text. -/
theorem ended
    (h : Scanned lexicon k.tables At tabWidth lx stream cursor entry x [] later)
    (hk : compile lexicon options = .ok k) (hbest : x.best = none) (herror : x.error = none)
    (hend : cursor.rest = []) (kept : String) :
    ∃ eof, (∀ rule, eof = some rule ↔ lexicon.EofRule cursor.lexState rule) ∧
      Simulates k.tables At tabWidth lexicon.states.length (lx.advance stream kept first)
        (Lexicon.onEnd cursor kept eof) := by
  have hlater : later = [] := h.rest_eq.symm.trans hend
  have hcaret : x.caret = cursor.caret := h.has.caret
  have hstands := h.stands_at x.caret h.stream
  rw [hlater, ← hend, hcaret] at hstands
  rw [advance_of_end h.entry_eq h.scan_eq hbest herror h.has.first, hcaret]
  exact simulates_finishInput hk hstands h.lexEntry kept

/-- Nothing matches what the scan read: all but the first character is put back. -/
theorem unrecognized
    (h : Scanned lexicon k.tables At tabWidth lx stream cursor entry x (c :: v) later)
    (hAt : Steady final At) (hbest : x.best = none) (herror : x.error = none) (kept : String)
    (first : Pos) :
    ∃ o, lexicon.Turn tabWidth cursor kept first o ∧
      Simulates k.tables At tabWidth lexicon.states.length (lx.advance stream kept first) o := by
  obtain ⟨s, hput, hback⟩ := exists_putBack hAt h.stream 1 x.caret.count
  rw [← h.has.read] at hput
  refine ⟨_, .unrecognized (h.not_longest hbest) h.rest_eq, ?_⟩
  have hone : cursor.consume tabWidth 1 =
      { cursor with caret := cursor.caret.advance tabWidth c, rest := v ++ later } := by
    unfold Cursor.consume
    rw [h.rest_eq]
    rfl
  rw [advance_of_unrecognized h.entry_eq h.scan_eq hbest herror h.has.first hput]
  unfold drop
  rw [hAt.image hback, hone, h.stands.caret]
  refine ⟨?_, h.stands_at _ hback⟩
  rw [String.singleton_eq_ofList, ← h.stands.lexState]
  rfl

/-- The stream failed behind everything that was left. -/
theorem failed (h : Scanned lexicon k.tables At tabWidth lx stream cursor entry x v [])
    (hbest : x.best = none) (herror : x.error = some e) (kept : String) (first : Pos) :
    Simulates k.tables At tabWidth lexicon.states.length (lx.advance stream kept first)
      (cursor.failure tabWidth e) := by
  have hrest := h.rest_eq
  rw [List.append_nil] at hrest
  have hall : cursor.consume tabWidth cursor.rest.length =
      { cursor with caret := x.caret, rest := [] } := by
    unfold Cursor.consume
    rw [List.take_length, List.drop_length, h.has.caret, hrest]
  rw [advance_of_error h.entry_eq h.scan_eq hbest herror, Cursor.failure, hall]
  exact ⟨rfl, h.stands_at x.caret h.stream⟩

end Scanned

/-- One match of a lexer is one turn of the reference, unless the stream fails first and nothing
matches. At a failure nothing is taken for the end of the text. -/
theorem turn_or_fail (hAt : Steady final At) (hk : compile lexicon options = .ok k)
    (hs : lx.Stands k.tables At tabWidth lexicon.states.length stream cursor) (kept : String)
    (first : Pos) :
    ∃ o, Simulates k.tables At tabWidth lexicon.states.length (lx.advance stream kept first) o ∧
      (lexicon.Turn tabWidth cursor kept first o ∧ (cursor.rest = [] → final = .ok none) ∨
        ∃ e, final = .error e ∧ o = cursor.failure tabWidth e ∧
          ∀ rule n, ¬lexicon.Longest cursor rule n) := by
  obtain ⟨entry, x, v, later, hscan, hnonempty, herror⟩ := exists_scanned hAt hk hs
  cases hbest : x.best with
  | some m =>
    obtain ⟨rule, hlongest, hsimulates⟩ := hscan.matched hAt hk hbest kept first
    exact ⟨_, hsimulates,
      Or.inl ⟨.matched hlongest, fun hnil => absurd hnil hlongest.rest_ne_nil⟩⟩
  | none =>
    rcases herror with ⟨herror, hfinal⟩ | ⟨rfl, e, hfinal, herror⟩
    · cases v with
      | nil =>
        -- Nothing was read, so nothing was left.
        have hend : cursor.rest = [] := Classical.not_not.1 fun h => hnonempty h rfl
        obtain ⟨eof, heof, hsimulates⟩ := hscan.ended hk hbest herror hend kept
        exact ⟨_, hsimulates, Or.inl ⟨.ended hend heof, fun _ => hfinal rfl⟩⟩
      | cons c v =>
        obtain ⟨o, hturn, hsimulates⟩ := hscan.unrecognized hAt hbest herror kept first
        have hne : cursor.rest ≠ [] := by
          rw [hscan.rest_eq]
          exact List.cons_ne_nil _ _
        exact ⟨o, hsimulates, Or.inl ⟨hturn, fun hnil => absurd hnil hne⟩⟩
    · exact ⟨cursor.failure tabWidth e, hscan.failed hbest herror kept first,
        Or.inr ⟨e, hfinal, rfl, hscan.not_longest hbest⟩⟩

/-! ### A run of matches, and a call -/

/-- A call ends with the turn that finishes it. -/
theorem run_of_finish {result : Result} {lx' : Lexer σ} {stream' : σ} {kept : String}
    {first : Pos} (h : lx.advance stream kept first = .finish result lx' stream') :
    lx.run stream kept first = (result, lx', stream') := by
  rw [run]
  split <;> simp_all

/-- A call goes on after a turn that does not finish it. -/
theorem run_of_next {lx' : Lexer σ} {stream' : σ} {kept kept' : String} {first first' : Pos}
    (h : lx.advance stream kept first = .next lx' stream' kept' first') :
    lx.run stream kept first = lx'.run stream' kept' first' := by
  rw [run]
  split <;> simp_all

/-- The run of a lexer reads what the reference reads, unless the stream fails. The induction is on
the matches: after one that gives no result, both go on with the same text kept. -/
theorem reads_or_fail (hAt : Steady final At) (hk : compile lexicon options = .ok k)
    (hs : lx.Stands k.tables At tabWidth lexicon.states.length stream cursor) (kept : String)
    (first : Pos) :
    ∃ cursor', (lx.run stream kept first).2.1.Stands k.tables At tabWidth lexicon.states.length
        (lx.run stream kept first).2.2 cursor' ∧
      (lexicon.Reads tabWidth cursor kept first (lx.run stream kept first).1 cursor' ∧
          (final ≠ .ok none → cursor'.ended = cursor.ended) ∨
        ∃ e, final = .error e ∧ cursor.Fails e (lx.run stream kept first).1 cursor' ∧
          lexicon.Bare tabWidth cursor kept first) := by
  -- The induction is on the turns of the call. A turn that goes on keeps the text, so that a later
  -- failure is the failure of the whole call.
  fun_induction run lx stream kept first generalizing cursor with
  | case1 lx stream kept first result lx' stream' hadvance =>
    obtain ⟨o, hsimulates, hcase⟩ := turn_or_fail hAt hk hs kept first
    rw [hadvance] at hsimulates
    cases o with
    | next cursor' kept' first' => cases hsimulates
    | finish result' cursor' =>
      obtain ⟨rfl, hstands⟩ := hsimulates
      refine ⟨cursor', hstands, ?_⟩
      rcases hcase with ⟨hturn, hend⟩ | ⟨e, hfinal, hfailure, hnone⟩
      · exact Or.inl ⟨.finish hturn, fun hne =>
          (hturn.of_rest_ne_nil fun hnil => hne (hend hnil)).2⟩
      · exact Or.inr ⟨e, hfinal, .of_failure hfailure, Lexicon.bare_of_not_longest hnone⟩
  | case2 lx stream kept first lx' stream' kept' first' hadvance _ ih =>
    obtain ⟨o, hsimulates, hcase⟩ := turn_or_fail hAt hk hs kept first
    rw [hadvance] at hsimulates
    cases o with
    | finish result cursor' => cases hsimulates
    | next cursor' kept'' first'' =>
      obtain ⟨rfl, rfl, hstands⟩ := hsimulates
      rcases hcase with ⟨hturn, -⟩ | ⟨e, -, hfailure, -⟩
      · have hended : cursor'.ended = cursor.ended := hturn.ended_eq_of_next
        obtain ⟨cursor'', hstands', hlater⟩ := ih hstands
        refine ⟨cursor'', hstands', ?_⟩
        rcases hlater with ⟨hreads, hkeep⟩ | ⟨e, hfinal, hfails, hbare⟩
        · exact Or.inl ⟨.next hturn hreads, fun hne => (hkeep hne).trans hended⟩
        · exact Or.inr ⟨e, hfinal, hfails.of_total_eq hturn.total_eq hended, hbare.of_turn hturn⟩
      · cases hfailure

/-- The lexer has a stream, and both stand where the cursor stands. -/
def Holds (tables : Tables) (At : σ → List Char → List Char → Prop) (tabWidth states : Nat)
    (lx : Lexer σ) (k : Cursor) : Prop :=
  ∃ stream, lx.input = some stream ∧ lx.Stands tables At tabWidth states stream k

omit [CharStream σ] in
/-- What a lexer holds and its last error do not matter for where it stands. -/
theorem Stands.withInput {tables : Tables} {states : Nat}
    (hs : lx.Stands tables At tabWidth states stream cursor) (input : Option σ)
    (lastError : Option LexError) :
    Stands tables At tabWidth states { lx with input, lastError } stream cursor :=
  ⟨⟨hs.ready.tables_eq, hs.ready.sound⟩, hs.tabWidth_eq, hs.lexState, hs.caret, hs.isEos,
    hs.stream, hs.lexState_lt⟩

omit [CharStream σ] in
/-- A lexer stands where it stood when a lexical state is entered. -/
theorem Holds.enter {tables : Tables} {states i : Nat}
    (hs : lx.Holds tables At tabWidth states cursor) (hi : i < states) :
    (lx.setLexState i).Holds tables At tabWidth states { cursor with lexState := i } := by
  obtain ⟨stream, hinput, hs⟩ := hs
  exact ⟨stream, hinput, ⟨hs.ready.tables_eq, hs.ready.sound⟩, hs.tabWidth_eq, rfl, hs.caret,
    hs.isEos, hs.stream, hi⟩

/-- A call returns what the reference returns, unless the stream fails. -/
theorem call_or_fail (hAt : Steady final At) (hk : compile lexicon options = .ok k)
    (hs : lx.Holds k.tables At tabWidth lexicon.states.length cursor) :
    ∃ cursor', lx.nextToken.2.Holds k.tables At tabWidth lexicon.states.length cursor' ∧
      (lexicon.Call tabWidth cursor lx.nextToken.1 cursor' ∧
          (final ≠ .ok none → cursor'.ended = cursor.ended) ∨
        ∃ e, final = .error e ∧ cursor.Fails e lx.nextToken.1 cursor' ∧
          lexicon.Bare tabWidth cursor "" cursor.caret.pos) := by
  obtain ⟨stream, hinput, hs⟩ := hs
  have hstands := hs.withInput lx.input none
  by_cases heos : lx.isEos = true
  · rw [nextToken_of_ended lx hinput heos]
    exact ⟨cursor, ⟨stream, hinput, hstands⟩,
      Or.inl ⟨.ended (hs.isEos.symm.trans heos), fun _ => rfl⟩⟩
  · obtain ⟨cursor', hafter, hcase⟩ := reads_or_fail hAt hk hstands "" lx.caret.pos
    rw [nextToken_of_attached lx hinput heos rfl, ← hs.caret]
    refine ⟨cursor', ⟨_, rfl, hafter.withInput _ _⟩, hcase.imp (fun h => ⟨?_, h.2⟩) id⟩
    refine .reads (hs.isEos.symm.trans (Bool.eq_false_iff.2 heos)) ?_
    rw [← hs.caret]
    exact h.1

/-- A call on a stream that does not fail returns what the reference returns. -/
theorem call_nextToken (hAt : Faithful At) (hk : compile lexicon options = .ok k)
    (hs : lx.Holds k.tables At tabWidth lexicon.states.length cursor) :
    ∃ cursor', lexicon.Call tabWidth cursor lx.nextToken.1 cursor' ∧
      lx.nextToken.2.Holds k.tables At tabWidth lexicon.states.length cursor' := by
  obtain ⟨cursor', hafter, ⟨hcall, -⟩ | ⟨e, hfinal, -⟩⟩ := call_or_fail hAt.steady hk hs
  · exact ⟨cursor', hcall, hafter⟩
  · cases hfinal

/-- The results of the calls among some requests. -/
def respond (lx : Lexer σ) : List Request → List Result
  | [] => []
  | .next :: requests => lx.nextToken.1 :: respond lx.nextToken.2 requests
  | .enter i :: requests => respond (lx.setLexState i) requests

/-- The lexer after some requests. -/
def proceed (lx : Lexer σ) : List Request → Lexer σ
  | [] => lx
  | .next :: requests => proceed lx.nextToken.2 requests
  | .enter i :: requests => proceed (lx.setLexState i) requests

/-- The results of a lexer are those of the reference, by induction on the requests. -/
theorem answers_respond (hAt : Faithful At) (hk : compile lexicon options = .ok k)
    {requests : List Request}
    (hrequests : ∀ i, Request.enter i ∈ requests → i < lexicon.states.length)
    (hs : lx.Holds k.tables At tabWidth lexicon.states.length cursor) :
    lexicon.Answers tabWidth cursor requests (lx.respond requests) := by
  induction requests generalizing lx cursor with
  | nil => exact .nil
  | cons request requests ih =>
    have hlater : ∀ i, Request.enter i ∈ requests → i < lexicon.states.length :=
      fun i hi => hrequests i (List.mem_cons_of_mem _ hi)
    cases request with
    | next =>
      obtain ⟨cursor', hcall, hs'⟩ := call_nextToken hAt hk hs
      exact .next hcall (ih hlater hs')
    | enter i =>
      have hi := hrequests i List.mem_cons_self
      exact .enter hi (ih hlater (hs.enter hi))

/-- A lexer that is attached to a stream stands there, in its first lexical state. -/
theorem holds_attach_of_at (hk : compile lexicon options = .ok k) (lx : Lexer σ)
    (hlx : lx.Built k.tables) (hstream : At stream taken rest) :
    (lx.attach stream).Holds k.tables At lx.tabWidth lexicon.states.length
      ⟨0, .start, rest, false⟩ := by
  obtain ⟨himplements, hserves⟩ := serves_of_compile hk
  have hready := hlx.ready hserves.fits
  exact ⟨stream, rfl, ⟨hready.tables_eq, hready.sound⟩, rfl, rfl, rfl, rfl, ⟨taken, hstream⟩,
    himplements.nonempty⟩

/-- A lexer that starts to read a text stands where the reference starts. -/
theorem holds_attach {lx : Lexer Reader} (hk : compile lexicon options = .ok k)
    (hlx : lx.Built k.tables) (text : String) :
    (lx.attach { source := .ofString text }).Holds k.tables Reader.At lx.tabWidth
      lexicon.states.length (Cursor.start text.toList) :=
  holds_attach_of_at hk lx hlx (Reader.at_ofString text)

/-- On every text, for any calls with lexical states entered between them, a lexer returns exactly
what the reference returns. -/
theorem respond_eq_iff {lx : Lexer Reader} (hk : compile lexicon options = .ok k)
    (hlx : lx.Built k.tables) (text : String) {requests : List Request}
    (hrequests : ∀ i, Request.enter i ∈ requests → i < lexicon.states.length)
    (results : List Result) :
    (lx.attach { source := .ofString text }).respond requests = results ↔
      lexicon.Answers lx.tabWidth (Cursor.start text.toList) requests results := by
  have hanswers := answers_respond Reader.faithful hk hrequests (holds_attach hk hlx text)
  constructor
  · rintro rfl
    exact hanswers
  · exact hanswers.eq

/-- A lexer of the sample lexicon returns the word, and then nothing. -/
theorem respond_eq_iff_words : ∃ k, compile Lexicon.words Options.quiet = .ok k ∧
    ((ofTables k.tables).attach { source := .ofString "abb" } : Lexer Reader).respond
      [.next, .next] = [.ok (some ⟨1, 0, "abb", ⟨⟨1, 1⟩, ⟨1, 3⟩⟩⟩), .ok none] := by
  obtain ⟨k, hk⟩ := exists_compile rfl hasNoErrors_words rfl
  have hword : Lexicon.words.Call 4 (Cursor.start "abb".toList)
      (.ok (some ⟨1, 0, "abb", ⟨⟨1, 1⟩, ⟨1, 3⟩⟩⟩)) ⟨0, ⟨3, 1, 4⟩, [], false⟩ := by
    refine .reads rfl (.finish ?_)
    have hlongest : Lexicon.words.Longest (Cursor.start "abb".toList) _ 3 :=
      ⟨0, Lexicon.selects_words, rfl⟩
    exact @Lexicon.Turn.matched _ 4 _ "" ⟨1, 1⟩ _ _ hlongest
  have hend : Lexicon.words.Call 4 ⟨0, ⟨3, 1, 4⟩, [], false⟩ (.ok none)
      ⟨0, ⟨3, 1, 4⟩, [], true⟩ := by
    refine .reads rfl (.finish (@Lexicon.Turn.ended _ _ _ _ _ none rfl fun rule => ?_))
    have hnone : ∀ x ∈ Lexicon.words.numbered, ¬x.2.regex.isEof = true := by decide
    exact iff_of_false (fun h => nomatch h) fun ⟨id, hid, heof⟩ =>
      hnone _ (List.mem_of_getElem? hid) heof
  refine ⟨k, hk, (respond_eq_iff hk .ofTables "abb" (fun i hi => ?_) _).2
    (.next hword (.next hend .nil))⟩
  simp only [List.mem_cons, List.not_mem_nil, reduceCtorEq, or_false] at hi

end Lexer

end Lexwright

import Lexwright.Lexer.Scan

/-!
# `Lexwright.Lexer.Basic`: tokens of a stream

A lexer goes through its stream match by match. A match is returned as a token, dropped, or kept
as the start of the next token, as its rule asks for.

* `Lexer`: the tables, the stream, and where reading stands.
* `Lexer.advance`: one match.
* `Lexer.run`: matches until there is a result; `remaining_advance_lt` is why there is one.
* `Lexer.nextToken`: the next token, nothing at the end of the input, or an error.
* `Lexer.Items`: an iterator over the tokens, with unrecognized characters among them.
-/

set_option autoImplicit false

namespace Lexwright

/-- A lexer. -/
structure Lexer (σ : Type) where
  tables : Tables
  input : Option σ
  lastError : Option LexError
  /-- Whether the end of the input was reached. -/
  isEos : Bool
  caret : Caret
  tabWidth : Nat
  lexState : Nat
  marks : Marks

/-- What became of one match: a result, or the text that is kept for the next token, with the
position of its first character. -/
inductive Advance (σ : Type) where
  | finish (result : Except LexError (Option Token)) (lexer : Lexer σ) (stream : σ)
  | next (lexer : Lexer σ) (stream : σ) (kept : String) (first : Pos)

namespace Lexer

variable {σ : Type}

/-- A lexer without a stream. -/
def ofTables (tables : Tables) : Lexer σ where
  tables
  input := none
  lastError := none
  isEos := false
  caret := .start
  tabWidth := 4
  lexState := 0
  marks := .ofSize tables.transitions.size

/-- Starts to read a stream, in the first lexical state. -/
def attach (lx : Lexer σ) (input : σ) : Lexer σ :=
  { lx with
    input := some input, lastError := none, isEos := false, caret := .start, lexState := 0 }

/-- Takes the stream away. -/
def detach (lx : Lexer σ) : Option σ × Lexer σ := (lx.input, { lx with input := none })

/-- Enters a lexical state. -/
def setLexState (lx : Lexer σ) (lexState : Nat) : Lexer σ := { lx with lexState }

/-- Sets the distance of tab stops, which is at least 1. -/
def setTabWidth (lx : Lexer σ) (width : Nat) : Lexer σ := { lx with tabWidth := max width 1 }

/-- Moves past a character that was read elsewhere. -/
def skipChar (lx : Lexer σ) (c : Char) : Lexer σ :=
  { lx with caret := lx.caret.advance lx.tabWidth c }

/-- Where an error occurs now. -/
def errorInfo (lx : Lexer σ) (text : String) : ErrorInfo := ⟨lx.caret, none, lx.lexState, text⟩

variable [CharStream σ]

/-- Puts back the last `n` characters, and says why if it cannot. -/
def putBack (stream : σ) (n count : Nat) : Except LexError σ :=
  if n = 0 then .ok stream
  else match CharStream.backup stream n with
    | .ok s => .ok s
    | .error e => .error (.stream count e)

/-- Does what the rule of a match asks for. -/
def take (lx : Lexer σ) (stream : σ) (kept : String) (first : Pos) (m : Match) : Advance σ :=
  let terminal := lx.tables.terminals.getD m.rule default
  let lx := { lx with caret := m.after, lexState := terminal.nextState.getD lx.lexState }
  let text := kept ++ CharStream.image stream
  match terminal.category with
  | .skip => .next lx stream "" lx.caret.pos
  | .more => .next lx stream text first
  | .token => .finish (.ok (some ⟨terminal.kind, 0, text, ⟨first, m.lastPos⟩⟩)) lx stream
  | .special => .finish (.ok (some ⟨terminal.kind, 1, text, ⟨first, m.lastPos⟩⟩)) lx stream

/-- The result at the end of the input: text that was kept is an error; else there may be a token
for the end of the input. -/
def finishInput (lx : Lexer σ) (stream : σ) (kept : String) (entry : LexEntry) : Advance σ :=
  let lx := { lx with isEos := true }
  if kept.isEmpty then
    let token := do
      let rule ← entry.eofRule
      let terminal ← lx.tables.terminals[rule]?
      let channel ← terminal.category.channel?
      return ⟨terminal.kind, channel, "", .empty⟩
    .finish (.ok token) lx stream
  else .finish (.error (.endOfStream (lx.errorInfo kept))) lx stream

/-- Drops one character, with which no match begins. -/
def drop (lx : Lexer σ) (stream : σ) (kept : String) (start : Caret) (c : Char) (after : Caret) :
    Advance σ :=
  .finish
    (.error (.unrecognizedChar ⟨start, some c, lx.lexState, kept ++ CharStream.image stream⟩))
    { lx with caret := after } stream

/-- Looks for the longest match from where reading stands. -/
def scan (lx : Lexer σ) (stream : σ) (entry : LexEntry) : Scan σ :=
  scanFrom lx.tables lx.tabWidth { stream, caret := lx.caret, marks := lx.marks }
    ((entry.startRow.map lx.tables.row).getD #[])

/-- Reads one match in the current lexical state. `kept` is the text that earlier matches left for
the next token. -/
def advance (lx : Lexer σ) (stream : σ) (kept : String) (first : Pos) : Advance σ :=
  let stream := CharStream.beginToken stream
  match lx.tables.lexStates[lx.lexState]? with
  | none => .finish (.error (.noSuchLexState (lx.errorInfo kept))) lx stream
  | some entry =>
    let x := lx.scan stream entry
    let start := lx.caret
    let lx := { lx with caret := x.caret, marks := x.marks }
    match x.best with
    | some m =>
      match putBack x.stream (x.read - m.length) x.caret.count with
      | .ok stream => lx.take stream kept first m
      | .error e => .finish (.error e) lx x.stream
    | none =>
      -- a match before the failure would have been given first
      match x.error, x.first with
      | some e, _ => .finish (.error (.stream x.caret.count e)) lx x.stream
      | none, none => lx.finishInput x.stream kept entry
      | none, some (c, after) =>
        match putBack x.stream (x.read - 1) x.caret.count with
        | .ok stream => lx.drop stream kept start c after
        | .error e => .finish (.error e) lx x.stream

omit [CharStream σ] in
/-- A scan that has read nothing has no match to be wrong about. -/
theorem sound_start (stream : σ) (caret : Caret) (marks : Marks) :
    ({ stream, caret, marks } : Scan σ).Sound := fun _ h => nomatch h

/-- Putting back `n` characters leaves at most `n` more to read. -/
theorem remaining_putBack_le {stream s : σ} {n count : Nat} (h : putBack stream n count = .ok s) :
    CharStream.remaining s ≤ CharStream.remaining stream + n := by
  unfold putBack at h
  split at h
  · cases h; omega
  · split at h
    · rename_i hBack
      cases h
      exact CharStream.remaining_backup_le hBack
    · cases h

/-- A match that gives no result uses up at least one character of the stream. -/
theorem remaining_advance_lt {lx lx' : Lexer σ} {stream stream' : σ} {kept kept' : String}
    {first first' : Pos} (h : lx.advance stream kept first = .next lx' stream' kept' first') :
    CharStream.remaining stream' < CharStream.remaining stream := by
  unfold advance at h
  simp only at h
  split at h
  · cases h
  · rename_i entry _
    generalize hx : lx.scan (CharStream.beginToken stream) entry = x at h
    have hBegin := CharStream.remaining_beginToken_le stream
    have hRead := remaining_scanFrom_le lx.tables lx.tabWidth
      { stream := CharStream.beginToken stream, caret := lx.caret, marks := lx.marks }
      ((entry.startRow.map lx.tables.row).getD #[])
    have hSound := sound_scanFrom lx.tables lx.tabWidth
      ((entry.startRow.map lx.tables.row).getD #[])
      (sound_start (CharStream.beginToken stream) lx.caret lx.marks)
    unfold scan at hx
    rw [hx] at hRead hSound
    simp only at hRead
    split at h
    · rename_i m hBest
      obtain ⟨hPos, hLength⟩ := hSound m hBest
      split at h
      · rename_i s hBack
        have hBack := remaining_putBack_le hBack
        -- what is put back is less than what was read
        have hStream : stream' = s := by
          unfold take at h
          simp only at h
          split at h <;> cases h <;> rfl
        subst hStream
        omega
      · cases h
    · split at h
      · cases h
      · unfold finishInput at h
        simp only at h
        split at h <;> cases h
      · split at h
        · cases h
        · cases h

/-- Reads matches until there is a result. -/
def run (lx : Lexer σ) (stream : σ) (kept : String) (first : Pos) :
    Except LexError (Option Token) × Lexer σ × σ :=
  match h : lx.advance stream kept first with
  | .finish result lx stream => (result, lx, stream)
  | .next lx stream kept first =>
    have := remaining_advance_lt h
    lx.run stream kept first
termination_by CharStream.remaining stream

/-- The next token, nothing at the end of the input, or an error. -/
def nextToken (lx : Lexer σ) : Except LexError (Option Token) × Lexer σ :=
  match lx.input with
  | none => (.error .noStream, { lx with lastError := some .noStream })
  | some stream =>
    if lx.isEos then (.ok none, { lx with lastError := none })
    else
      let (result, lx, stream) := { lx with lastError := none }.run stream "" lx.caret.pos
      let lastError := match result with
        | .error e => some e
        | .ok _ => none
      (result, { lx with input := some stream, lastError })

/-- What an iterator does next: it reads on, or reports the error that it has read. -/
inductive ItemMode where
  | normal
  | error
deriving DecidableEq, Repr

/-- An iterator over the tokens of a lexer, with an item for each unrecognized character. -/
structure Items (σ : Type) where
  lexer : Lexer σ
  /-- Where the error to report occurred. -/
  errorInfo : Option ErrorInfo := none
  mode : ItemMode := .normal

/-- The item for an unrecognized character. Its text is the wording of the lexer's last error. -/
def Items.report (it : Items σ) : Option Token × Items σ :=
  match it.errorInfo with
  | some info =>
    (some ⟨errorKind, 0, LexError.displayLast it.lexer.lastError,
      ⟨info.caret.pos, info.caret.pos⟩⟩, { it with errorInfo := none, mode := .normal })
  | none => (none, { it with mode := .normal })

/-- The next item. There is none at the end of the input and after any other error. -/
def Items.next (it : Items σ) : Option Token × Items σ :=
  match it.mode with
  | .normal =>
    match it.lexer.nextToken with
    | (.ok token, lexer) => (token, { it with lexer })
    | (.error (.unrecognizedChar info), lexer) =>
      { lexer, errorInfo := some info, mode := .error : Items σ }.report
    | (.error _, lexer) => (none, { it with lexer })
  | .error => it.report

/-- The next items, up to `n` of them. -/
def Items.take (it : Items σ) : Nat → List Token × Items σ
  | 0 => ([], it)
  | n + 1 =>
    match it.next with
    | (some item, it) =>
      let (rest, it) := it.take n
      (item :: rest, it)
    | (none, it) => ([], it)

/-- The tokens that a lexer has still to give. -/
def tokens (lx : Lexer σ) : Items σ := { lexer := lx }

/-- The next items of a lexer, up to `n` of them. -/
def items (lx : Lexer σ) (n : Nat) : List Token × Lexer σ :=
  let (found, it) := lx.tokens.take n
  (found, it.lexer)

/-- Whether a lexer has more to give after a result. -/
def goesOn : Except LexError (Option Token) → Bool
  | .ok (some _) => true
  | .error (.unrecognizedChar _) => true
  | _ => false

/-- The next results, up to `n` of them, and none after the first that ends the input. -/
def results (lx : Lexer σ) : Nat → List (Except LexError (Option Token)) × Lexer σ
  | 0 => ([], lx)
  | n + 1 =>
    match lx.nextToken with
    | (result, lx) =>
      if goesOn result then
        let (rest, lx) := lx.results n
        (result :: rest, lx)
      else ([result], lx)

end Lexer

end Lexwright

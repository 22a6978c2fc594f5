import Lexwright.Proofs.Lexer.Blocks
import Lexwright.Proofs.Lexer.Checked
import Lexwright.Proofs.Lexer.Run
import Lexwright.Proofs.Stream.Motion

/-!
# `Lexwright.Proofs.Lexer.Safety`: a lexer stays within its tables and its reader

A user attaches readers, takes them away, asks for tokens, and enters lexical states that there are.
A lexer with the tables of a lexicon uses no index that is out of range then, does not end up in a
lexical state that it does not have, and puts back no more than it has read.

* `Lexer.Used`: the lexers that such calls lead to.
* `Lexer.Safe`: what the calls preserve. `safe_nextToken` is the step for a token.
* `Lexer.Used.safe`: the same after any calls.
* `Lexer.nextToken_within`: what follows for the next token.
-/

set_option autoImplicit false

namespace Lexwright

open CharStream (Steady)

/-! ### Readers that a lexer moves -/

namespace Reader

variable {r r' : Reader} {text taken rest : List Char} {n : Nat}
  {final result : Except StreamError (Option Char)}

/-- A read leads to a reachable reader. -/
theorem Reachable.of_read (h : r.Reachable) (hread : r.read = (result, r')) : r'.Reachable := by
  have hmove := h.move .read
  rwa [show (r.move .read).2 = r' from congrArg Prod.snd hread] at hmove

/-- A move back leads to a reachable reader. -/
theorem Reachable.of_backup (h : r.Reachable) (hbackup : r.backup n = .ok r') : r'.Reachable := by
  have hmove := h.move (.backup n)
  simp only [Reader.move, hbackup] at hmove
  exact hmove

/-- The reader stands in the text, and motions have led to it. -/
structure Tracked (text : List Char) (final : Except StreamError (Option Char)) (r : Reader)
    (taken rest : List Char) : Prop where
  along : Along text final r taken rest
  reachable : r.Reachable

/-- What a lexer does with a reader are motions. -/
theorem steady_tracked (text : List Char) (hfinal : ∀ c, final ≠ .ok (some c)) :
    Steady final (Tracked text final) where
  ne_some := hfinal
  read h := by
    obtain ⟨r', hread, halong⟩ := h.along.read
    exact ⟨r', hread, halong, h.reachable.of_read hread⟩
  finish h := by
    obtain ⟨r', hread, halong⟩ := h.along.finish
    exact ⟨r', hread, halong, h.reachable.of_read hread⟩
  backup h := by
    obtain ⟨r', hbackup, halong⟩ := h.along.backup
    exact ⟨r', hbackup, halong, h.reachable.of_backup hbackup⟩
  beginToken h := ⟨h.along.beginToken, h.reachable.move .beginToken⟩
  image h := h.along.image

/-- Every reader stands in some text, behind which decoding stops. -/
theorem Reachable.exists_tracked (h : r.Reachable) :
    ∃ text final taken rest, Tracked text final r taken rest ∧
      ∀ requested available, final ≠ .error (.noRoomToBackup requested available) := by
  obtain ⟨text, final, p, hfollows, hfinal⟩ := h.exists_follows
  exact ⟨text, final, _, _, ⟨hfollows.along, h⟩, hfinal⟩

end Reader

/-! ### Lexers in use -/

/-- The result is not about a lexical state that is missing, nor about room to put back. -/
structure Result.IsUsual (result : Result) : Prop where
  lexState : ∀ info, result ≠ .error (.noSuchLexState info)
  room : ∀ count requested available,
    result ≠ .error (.stream count (.noRoomToBackup requested available))

/-- A result that returns some text is about neither. -/
theorem Result.isUsual_of_text {result : Result} {w : List Char} (h : result.text? = some w) :
    result.IsUsual := by
  constructor
  · rintro info rfl
    cases h
  · rintro count requested available rfl
    cases h

namespace Lexer

/-- The lexers that there are for some tables when every reader is one that motions led to, and
every lexical state that is entered is one of the tables. -/
inductive Used (tables : Tables) : Lexer Reader → Prop where
  | ofTables : Used tables (ofTables tables)
  | attach {lx : Lexer Reader} (h : Used tables lx) {r : Reader} (hr : r.Reachable) :
    Used tables (lx.attach r)
  | detach {lx : Lexer Reader} (h : Used tables lx) : Used tables lx.detach.2
  | setLexState {lx : Lexer Reader} (h : Used tables lx) {i : Nat}
    (hi : i < tables.lexStates.size) : Used tables (lx.setLexState i)
  | setTabWidth {lx : Lexer Reader} (h : Used tables lx) (width : Nat) :
    Used tables (lx.setTabWidth width)
  | skipChar {lx : Lexer Reader} (h : Used tables lx) (c : Char) : Used tables (lx.skipChar c)
  | nextToken {lx : Lexer Reader} (h : Used tables lx) : Used tables lx.nextToken.2

/-- The lexer is ready and in a lexical state of the tables, and its reader is one that motions led
to. -/
structure Safe (tables : Tables) (lx : Lexer Reader) : Prop where
  ready : lx.Ready tables
  lexState_lt : lx.lexState < tables.lexStates.size
  reachable : ∀ r ∈ lx.input, r.Reachable

variable {lexicon : Lexicon} {options : Options} {k : Compilation} {lx : Lexer Reader}

/-- A token leaves the lexer safe, and the result is a usual one. -/
theorem safe_nextToken (hk : compile lexicon options = .ok k) (h : lx.Safe k.tables) :
    lx.nextToken.2.Safe k.tables ∧ Result.IsUsual lx.nextToken.1 := by
  cases hinput : lx.input with
  | none =>
    rw [nextToken_of_detached lx hinput]
    exact ⟨⟨⟨h.ready.tables_eq, h.ready.sound⟩, h.lexState_lt, h.reachable⟩,
      fun _ h => (nomatch h), fun _ _ _ h => (nomatch h)⟩
  | some r =>
    obtain ⟨himplements, hserves⟩ := serves_of_compile hk
    have hstates : k.tables.lexStates.size = lexicon.states.length :=
      hserves.lexStates.trans himplements.stateCount
    obtain ⟨text, final, taken, rest, htracked, hfinal⟩ :=
      (h.reachable r hinput).exists_tracked
    -- The lexer holds a cursor that stands where it stands.
    have hholds : lx.Holds k.tables (Reader.Tracked text final) lx.tabWidth lexicon.states.length
        ⟨lx.lexState, lx.caret, rest, lx.isEos⟩ :=
      ⟨r, hinput, h.ready, rfl, rfl, rfl, rfl, ⟨taken, htracked⟩, hstates ▸ h.lexState_lt⟩
    obtain ⟨cursor, ⟨r', hinput', hstands⟩, hcase⟩ :=
      call_or_fail (Reader.steady_tracked text htracked.along.ne_some) hk hholds
    have hsafe : lx.nextToken.2.Safe k.tables := by
      refine ⟨hstands.ready, ?_, fun r'' hr'' => ?_⟩
      · rw [hstands.lexState, hstates]
        exact hstands.lexState_lt
      · rw [hinput'] at hr''
        cases hr''
        obtain ⟨_, htracked'⟩ := hstands.stream
        exact htracked'.reachable
    refine ⟨hsafe, ?_⟩
    rcases hcase with ⟨hcall, -⟩ | ⟨e, rfl, hfails, -⟩
    · obtain ⟨w, hw⟩ := hcall.exists_text
      exact Result.isUsual_of_text hw
    · -- The failure is that of decoding.
      rw [hfails.result_eq]
      refine ⟨fun _ h => (nomatch h), fun count requested available heq => ?_⟩
      cases heq
      exact hfinal requested available rfl

/-- Every use of a lexer leaves it safe. -/
theorem Used.safe (hk : compile lexicon options = .ok k) (h : lx.Used k.tables) :
    lx.Safe k.tables := by
  have hclosed := closed_of_compile hk
  induction h with
  | ofTables =>
    exact ⟨⟨rfl, Marks.sound_ofSize _⟩, hclosed.nonempty, fun r hr => (nomatch hr)⟩
  | attach _ hr ih =>
    refine ⟨⟨ih.ready.tables_eq, ih.ready.sound⟩, hclosed.nonempty, fun r' hr' => ?_⟩
    cases hr'
    exact hr
  | detach _ ih =>
    exact ⟨⟨ih.ready.tables_eq, ih.ready.sound⟩, ih.lexState_lt, fun r hr => (nomatch hr)⟩
  | setLexState _ hi ih => exact ⟨⟨ih.ready.tables_eq, ih.ready.sound⟩, hi, ih.reachable⟩
  | setTabWidth _ width ih =>
    exact ⟨⟨ih.ready.tables_eq, ih.ready.sound⟩, ih.lexState_lt, ih.reachable⟩
  | skipChar _ c ih =>
    exact ⟨⟨ih.ready.tables_eq, ih.ready.sound⟩, ih.lexState_lt, ih.reachable⟩
  | nextToken _ ih => exact (safe_nextToken hk ih).1

/-- The tables of a lexicon are closed, and after any calls a token is found without an index that
is out of range. The lexer is not in a lexical state that is missing, never lacks room to put back,
and its reader is again one that can be attached. -/
theorem nextToken_within (hk : compile lexicon options = .ok k) (h : lx.Used k.tables) :
    k.tables.Closed ∧ lx.nextToken? = some lx.nextToken ∧
      (∀ info, lx.nextToken.1 ≠ .error (.noSuchLexState info)) ∧
      (∀ count requested available,
        lx.nextToken.1 ≠ .error (.stream count (.noRoomToBackup requested available))) ∧
      ∀ r ∈ lx.nextToken.2.detach.1, r.Reachable := by
  have hclosed := closed_of_compile hk
  obtain ⟨hnext, husual⟩ := safe_nextToken hk (h.safe hk)
  exact ⟨hclosed, nextToken?_eq hclosed (h.safe hk).ready, husual.lexState, husual.room,
    hnext.reachable⟩

/-- A lexer of the sample lexicon that is used again on a source that is not a text. -/
theorem nextToken_within_words : ∃ k, compile Lexicon.words Options.quiet = .ok k ∧
    let first : Lexer Reader := (ofTables k.tables).attach { source := .ofString "abb" }
    let lx := first.nextToken.2.detach.2.attach { source := ⟨[0x61, 0x80], .closed⟩ }
    k.tables.Closed ∧ lx.nextToken? = some lx.nextToken := by
  obtain ⟨k, hk⟩ := exists_compile rfl hasNoErrors_words rfl
  have hused := ((@Used.ofTables k.tables).attach (.fresh (.ofString "abb"))).nextToken
  have hwithin := nextToken_within hk (hused.detach.attach (.fresh ⟨[0x61, 0x80], .closed⟩))
  exact ⟨k, hk, hwithin.1, hwithin.2.1⟩

end Lexer

end Lexwright

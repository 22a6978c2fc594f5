import Lexwright.Proofs.Lexer.Run
import Lexwright.Proofs.Stream.Motion

/-!
# `Lexwright.Proofs.Lexer.Failure`: a failure of the stream is not the end of the input

Two lexers read the same text. The source of one fails behind it, that of the other ends. The first
gives what the second gives until it needs to know what comes behind the text, and from then on it
gives the failure.

* `Lexer.resultAt`: the results of calls one after another.
* `Lexer.Failing`: a lexer gives the failure whenever it is asked, as it does where no text is left.
* `Lexer.Cut`: the results of one lexer are those of another up to a failure.
* `Lexer.exists_cut`: the failure comes after finitely many results.
* `Lexer.fails_after_text`: the same for readers, from the start of their text.
-/

set_option autoImplicit false

namespace Lexwright

open CharStream (Steady)

variable {σ τ : Type} [CharStream σ] [CharStream τ] {At : σ → List Char → List Char → Prop}
  {At' : τ → List Char → List Char → Prop} {lexicon : Lexicon} {options : Options}
  {k : Compilation} {tabWidth n count : Nat} {cursor : Cursor} {e : StreamError}

namespace Lexer

/-- The lexer after `n` calls. -/
def afterCalls (lx : Lexer σ) : Nat → Lexer σ
  | 0 => lx
  | n + 1 => afterCalls lx.nextToken.2 n

/-- The result of a call that comes after `n` others. -/
def resultAt (lx : Lexer σ) (n : Nat) : Result := (lx.afterCalls n).nextToken.1

/-- Every result is the failure of the stream, after `count` characters. -/
structure Failing (lx : Lexer σ) (count : Nat) (e : StreamError) : Prop where
  result_eq : ∀ i, lx.resultAt i = .error (.stream count e)
  isEos : ∀ i, (lx.afterCalls i).isEos = false

/-- The first `n` results of one lexer are those of the other, and each of them is a token with some
text or an error about a character. All later ones are the failure of the stream. Where they begin,
the other lexer returns no token with text, so no such token is lost. -/
structure Cut (lx : Lexer σ) (ly : Lexer τ) (count : Nat) (e : StreamError) (n : Nat) : Prop where
  before : ∀ i < n, lx.resultAt i = ly.resultAt i ∧ (lx.resultAt i).IsProper
  bare : (ly.resultAt n).IsBare
  behind : ∀ i, n ≤ i → lx.resultAt i = .error (.stream count e)
  isEos : ∀ i, (lx.afterCalls i).isEos = false

variable {lx : Lexer σ} {ly : Lexer τ}

/-- One more failure before others. -/
theorem Failing.fail (h : Failing lx.nextToken.2 count e)
    (hresult : lx.nextToken.1 = .error (.stream count e)) (heos : lx.isEos = false) :
    Failing lx count e where
  result_eq
    | 0 => hresult
    | i + 1 => h.result_eq i
  isEos
    | 0 => heos
    | i + 1 => h.isEos i

/-- A lexer that only fails gives what another gives up to its first result. -/
theorem Failing.cut (h : Failing lx count e) (hbare : Result.IsBare ly.nextToken.1) :
    Cut lx ly count e 0 where
  before i hi := absurd hi (Nat.not_lt_zero i)
  bare := hbare
  behind i _ := h.result_eq i
  isEos := h.isEos

/-- One more result that both lexers give. -/
theorem Cut.next (h : Cut lx.nextToken.2 ly.nextToken.2 count e n)
    (hresult : lx.nextToken.1 = ly.nextToken.1) (hproper : Result.IsProper lx.nextToken.1)
    (heos : lx.isEos = false) : Cut lx ly count e (n + 1) where
  before
    | 0, _ => ⟨hresult, hproper⟩
    | i + 1, hi => h.before i (Nat.lt_of_succ_lt_succ hi)
  bare := h.bare
  behind
    | 0, hi => absurd hi (Nat.not_succ_le_zero n)
    | i + 1, hi => h.behind i (Nat.le_of_succ_le_succ hi)
  isEos
    | 0 => heos
    | i + 1 => h.isEos i

omit [CharStream σ] in
/-- A lexer that holds a cursor is at the end of its input where the cursor is. -/
theorem Holds.isEos_eq {tables : Tables} {states : Nat}
    (hs : lx.Holds tables At tabWidth states cursor) : lx.isEos = cursor.ended := by
  obtain ⟨stream, -, hstands⟩ := hs
  exact hstands.isEos

/-- A call on a stream that fails behind its text never reaches the end. It returns what the
reference returns, and moves on; or it gives the failure, and no text is left. Then the reference
returns no token with text either. -/
theorem move_or_fail (hAt : Steady (.error e) At) (hk : compile lexicon options = .ok k)
    (hs : lx.Holds k.tables At tabWidth lexicon.states.length cursor)
    (hended : cursor.ended = false) :
    ∃ cursor', lx.nextToken.2.Holds k.tables At tabWidth lexicon.states.length cursor' ∧
      cursor'.ended = false ∧ cursor'.total = cursor.total ∧
      (lexicon.Call tabWidth cursor lx.nextToken.1 cursor' ∧ Result.IsProper lx.nextToken.1 ∧
          cursor'.rest.length < cursor.rest.length ∨
        lx.nextToken.1 = .error (.stream cursor.total e) ∧ cursor'.rest = [] ∧
          lexicon.Bare tabWidth cursor "" cursor.caret.pos) := by
  obtain ⟨cursor', hs', ⟨hcall, hkeep⟩ | ⟨e', hfinal, hfails, hbare⟩⟩ := call_or_fail hAt hk hs
  · have hended' : cursor'.ended = false := (hkeep fun h => nomatch h).trans hended
    obtain ⟨hproper, hlt, htotal⟩ := (hcall.reads_of_not_ended hended).of_not_ended hended'
    exact ⟨cursor', hs', hended', htotal, Or.inl ⟨hcall, hproper, hlt⟩⟩
  · cases hfinal
    exact ⟨cursor', hs', hfails.ended_eq.trans hended, hfails.total_eq,
      Or.inr ⟨hfails.result_eq, hfails.rest_eq, hbare⟩⟩

/-- Where no text is left, a lexer gives the failure whenever it is asked. -/
theorem failing_of_rest_eq_nil (hAt : Steady (.error e) At) (hk : compile lexicon options = .ok k)
    (hs : lx.Holds k.tables At tabWidth lexicon.states.length cursor) (hrest : cursor.rest = [])
    (hended : cursor.ended = false) : Failing lx cursor.total e := by
  have hfails : ∀ i, lx.resultAt i = .error (.stream cursor.total e) ∧
      (lx.afterCalls i).isEos = false := by
    intro i
    induction i generalizing lx cursor with
    | zero =>
      obtain ⟨cursor', -, -, -, ⟨-, -, hlt⟩ | ⟨hresult, -, -⟩⟩ := move_or_fail hAt hk hs hended
      · rw [hrest] at hlt
        exact absurd hlt (Nat.not_lt_zero _)
      · exact ⟨hresult, hs.isEos_eq.trans hended⟩
    | succ i ih =>
      obtain ⟨cursor', hs', hended', htotal, ⟨-, -, hlt⟩ | ⟨-, hrest', -⟩⟩ :=
        move_or_fail hAt hk hs hended
      · rw [hrest] at hlt
        exact absurd hlt (Nat.not_lt_zero _)
      · rw [← htotal]
        exact ih hs' hrest' hended'
  exact ⟨fun i => (hfails i).1, fun i => (hfails i).2⟩

/-- Two lexers stand at the same place of a text, behind which the stream of the first fails and
that of the second ends. Then the first gives what the second gives, up to the failure. Each result
uses some of the text up, so the induction is on what is left of it. -/
theorem exists_cut (hAt : Steady (.error e) At) (hAt' : Steady (.ok none) At')
    (hk : compile lexicon options = .ok k)
    (hs : lx.Holds k.tables At tabWidth lexicon.states.length cursor)
    (hs' : ly.Holds k.tables At' tabWidth lexicon.states.length cursor)
    (hended : cursor.ended = false) : ∃ n, Cut lx ly cursor.total e n := by
  induction hlength : cursor.rest.length using Nat.strongRecOn generalizing lx ly cursor with
  | ind length ih =>
    have heos := hs.isEos_eq.trans hended
    obtain ⟨next, hnext, hended', htotal, hcase⟩ := move_or_fail hAt hk hs hended
    obtain ⟨next', hnext', ⟨hcall', -⟩ | ⟨e', hfinal, -⟩⟩ := call_or_fail hAt' hk hs'
    · rcases hcase with ⟨hcall, hproper, hlt⟩ | ⟨hresult, hrest, hbare⟩
      · -- Both return what the reference returns, and stand at the same place again.
        obtain ⟨hresult, rfl⟩ := hcall.eq hcall'
        obtain ⟨n, hcut⟩ := ih next.rest.length (hlength ▸ hlt) hnext hnext' hended' rfl
        rw [htotal] at hcut
        exact ⟨n + 1, hcut.next hresult hproper heos⟩
      · have hfailing := failing_of_rest_eq_nil hAt hk hnext hrest hended'
        rw [htotal] at hfailing
        have hbare' := hbare _ _ (hcall'.reads_of_not_ended hended)
        exact ⟨0, (hfailing.fail hresult heos).cut hbare'⟩
    · cases hfinal

/-- Neither the failure of a stream nor a proper result is about the end of the input. -/
theorem Cut.not_end (h : Cut lx ly count e n) (i : Nat) :
    lx.resultAt i ≠ .ok none ∧ (∀ info, lx.resultAt i ≠ .error (.endOfStream info)) ∧
      ∀ token, lx.resultAt i = .ok (some token) → token.text ≠ "" := by
  rcases Nat.lt_or_ge i n with hi | hi
  · rcases (h.before i hi).2 with ⟨token, htoken, htext⟩ | ⟨info, hinfo⟩
    · rw [htoken]
      refine ⟨fun h => (nomatch h), fun _ h => (nomatch h), fun token' htoken' => ?_⟩
      cases htoken'
      exact htext
    · rw [hinfo]
      exact ⟨fun h => (nomatch h), fun _ h => (nomatch h), fun _ h => (nomatch h)⟩
  · rw [h.behind i hi]
    exact ⟨fun h => (nomatch h), fun _ h => (nomatch h), fun _ h => (nomatch h)⟩

/-- A lexer reads a source that fails with `e` behind a text. Up to some call its results are those
on a source that has the same text and ends, and from this call on each result is the failure, with
the number of the characters of the text. No token is lost: where the failure begins, the other
source gives no token that has text. And no result is about the end of the input: a token for it
would have no text. -/
theorem fails_after_text {lx : Lexer Reader} (hk : compile lexicon options = .ok k)
    (hlx : lx.Built k.tables) {source : Source} {text : List Char}
    (hgives : Reader.Gives source text (.error e)) :
    let failing := lx.attach { source }
    let ending := lx.attach { source := .ofString (String.ofList text) }
    (∃ n, (∀ i < n, failing.resultAt i = ending.resultAt i) ∧
      (∀ token, ending.resultAt n = .ok (some token) → token.text = "") ∧
      ∀ i, n ≤ i → failing.resultAt i = .error (.stream text.length e)) ∧
    ∀ i, failing.resultAt i ≠ .ok none ∧
      (∀ info, failing.resultAt i ≠ .error (.endOfStream info)) ∧
      (∀ token, failing.resultAt i = .ok (some token) → token.text ≠ "") ∧
      (failing.afterCalls i).isEos = false := by
  intro failing ending
  obtain ⟨n, hcut⟩ := exists_cut (Reader.steady_along text hgives.ne_some)
    (Reader.steady_along text fun _ h => nomatch h) hk
    (holds_attach_of_at hk lx hlx hgives.along)
    (holds_attach_of_at hk lx hlx (Reader.along_ofString text)) rfl
  have htotal : (Cursor.start text).total = text.length := Nat.zero_add _
  rw [show (⟨0, .start, text, false⟩ : Cursor) = .start text from rfl, htotal] at hcut
  refine ⟨⟨n, fun i hi => (hcut.before i hi).1, hcut.bare, hcut.behind⟩, fun i => ?_⟩
  obtain ⟨hnone, hend, htext⟩ := hcut.not_end i
  exact ⟨hnone, hend, htext, hcut.isEos i⟩

/-- A lexer of the sample lexicon on two letters and an octet that begins no character. -/
theorem fails_after_text_words : ∃ k, compile Lexicon.words Options.quiet = .ok k ∧
    let source : Source := ⟨[0x61, 0x62, 0x80], .closed⟩
    let failing : Lexer Reader := (ofTables k.tables).attach { source }
    let ending : Lexer Reader :=
      (ofTables k.tables).attach { source := .ofString (String.ofList ['a', 'b']) }
    Reader.Gives source ['a', 'b'] (.error (.encoding 2)) ∧
      (∃ n, (∀ i < n, failing.resultAt i = ending.resultAt i) ∧
        (∀ token, ending.resultAt n = .ok (some token) → token.text = "") ∧
        ∀ i, n ≤ i → failing.resultAt i = .error (.stream 2 (.encoding 2))) ∧
      ∀ i, failing.resultAt i ≠ .ok none := by
  obtain ⟨k, hk⟩ := exists_compile rfl hasNoErrors_words rfl
  have hdecodes : Source.Decodes 0 ⟨[0x61, 0x62, 0x80], .closed⟩ ['a', 'b']
      (.error (.encoding 2)) :=
    .next rfl (.next rfl (.stop fun _ h => nomatch h))
  have halong := Reader.along_of_decodes hdecodes
  obtain ⟨hresults, hall⟩ := fails_after_text hk .ofTables halong.gives
  exact ⟨k, hk, halong.gives, hresults, fun i => (hall i).1⟩

end Lexer

end Lexwright

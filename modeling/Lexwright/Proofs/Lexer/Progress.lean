import Lexwright.Proofs.Lexer.Failure

/-!
# `Lexwright.Proofs.Lexer.Progress`: calls end, and after finitely many of them there is nothing

A call goes through its stream in two loops: a scan reads characters while states are active, and
matches that give no result follow each other. Neither loop has a bound of its own. Rules that match
the empty text, lexical states that lead in circles and lexical states without rows do no harm,
since a match has at least one character.

* `scanWithin`, `Lexer.nextTokenWithin`: the loops, given up after a number of rounds.
  `scanWithin_eq`, `Lexer.runWithin_eq` and `Lexer.nextTokenWithin_eq` say that one round more than
  there are characters left is enough.
* `Lexicon.Consuming`: a result for which a character is to be consumed. `Turn.length_lt`,
  `Reads.length_lt` and `Call.length_lt` say that one is, for a match, for matches until there is a
  result, and for a call.
* `Lexer.EndsWithin`: after some results there is nothing any more. `Lexer.endsWithin_of_holds`
  counts them.
* `Lexer.tokens_progress`: all this of a lexer that is attached to a reader.
-/

set_option autoImplicit false

namespace Lexwright

open CharStream (Steady)

variable {σ : Type} [CharStream σ] {At : σ → List Char → List Char → Prop}
  {final : Except StreamError (Option Char)} {lexicon : Lexicon} {options : Options}
  {c : Compilation} {tabWidth n fuel reads turns : Nat} {taken rest : List Char} {k k' : Cursor}
  {kept : String} {first : Pos} {result : Result}

/-! ### Loops that are given up -/

/-- The loop of `scanFrom`, given up after `fuel` reads. -/
def scanWithin (t : Tables) (tabWidth : Nat) : Nat → Scan σ → Array Nat → Option (Scan σ)
  | 0, _, _ => none
  | fuel + 1, x, active =>
    match CharStream.read x.stream with
    | (.ok none, stream) => some { x with stream }
    | (.error e, stream) => some { x with stream, error := some e }
    | (.ok (some c), stream) =>
      let after := x.next t tabWidth active stream c
      if after.2.isEmpty then some after.1 else scanWithin t tabWidth fuel after.1 after.2

/-- A scan reads each character that is left at most once, and then asks whether there is one. -/
theorem scanWithin_eq (hAt : Steady final At) (t : Tables) (tabWidth : Nat) (x : Scan σ)
    (active : Array Nat) (hx : At x.stream taken rest) (hfuel : rest.length < fuel) :
    scanWithin t tabWidth fuel x active = some (scanFrom t tabWidth x active) := by
  induction rest generalizing fuel x active taken with
  | nil =>
    obtain ⟨fuel, rfl⟩ := Nat.exists_eq_add_one_of_ne_zero (Nat.ne_of_gt hfuel)
    obtain ⟨s, hread, -⟩ := hAt.finish hx
    rcases final with e | found
    · rw [scanWithin, hread, scanFrom_of_error hread]
    · cases found with
      | none => rw [scanWithin, hread, scanFrom_of_end hread]
      | some c => exact absurd rfl (hAt.ne_some c)
  | cons c rest ih =>
    obtain ⟨fuel, rfl⟩ := Nat.exists_eq_add_one_of_ne_zero (Nat.ne_zero_of_lt hfuel)
    obtain ⟨s, hread, hs⟩ := hAt.read hx
    have hrest := ih (x.next t tabWidth active s c).1 (x.next t tabWidth active s c).2 hs
      (Nat.lt_of_succ_lt_succ hfuel)
    rw [scanWithin, hread, scanFrom_of_read hread]
    simp only [hrest]
    split <;> rfl

namespace Lexer

variable {lx : Lexer σ} {stream : σ}

/-- One match, given up after `reads` reads. -/
def advanceWithin (lx : Lexer σ) (reads : Nat) (stream : σ) (kept : String) (first : Pos) :
    Option (Advance σ) :=
  let stream := CharStream.beginToken stream
  match lx.tables.lexStates[lx.lexState]? with
  | none => some (.finish (.error (.noSuchLexState (lx.errorInfo kept))) lx stream)
  | some entry =>
    (scanWithin lx.tables lx.tabWidth reads { stream, caret := lx.caret, marks := lx.marks }
      ((entry.startRow.map lx.tables.row).getD #[])).map fun x => lx.settle entry x kept first

/-- Matches until there is a result, given up after `turns` of them. -/
def runWithin (reads : Nat) : Nat → Lexer σ → σ → String → Pos →
    Option (Result × Lexer σ × σ)
  | 0, _, _, _, _ => none
  | turns + 1, lx, stream, kept, first => do
    match ← lx.advanceWithin reads stream kept first with
    | .finish result lx stream => some (result, lx, stream)
    | .next lx stream kept first => runWithin reads turns lx stream kept first

/-- A call, whose loops are given up after `fuel` rounds each. -/
def nextTokenWithin (lx : Lexer σ) (fuel : Nat) : Option (Result × Lexer σ) :=
  match lx.input with
  | none => some (.error .noStream, { lx with lastError := some .noStream })
  | some stream =>
    if lx.isEos then some (.ok none, { lx with lastError := none })
    else do
      let (result, lx, stream) ←
        runWithin fuel fuel { lx with lastError := none } stream "" lx.caret.pos
      let lastError := match result with
        | .error e => some e
        | .ok _ => none
      return (result, { lx with input := some stream, lastError })

/-- With more reads than there are characters left, the bounded turn is the turn. -/
theorem advanceWithin_eq (hAt : Steady final At) (hstream : At stream taken rest)
    (hreads : rest.length < reads) :
    lx.advanceWithin reads stream kept first = some (lx.advance stream kept first) := by
  unfold advanceWithin advance
  cases lx.tables.lexStates[lx.lexState]? with
  | none => rfl
  | some entry =>
    have hscan := scanWithin_eq hAt lx.tables lx.tabWidth
      { stream := CharStream.beginToken stream, caret := lx.caret, marks := lx.marks }
      ((entry.startRow.map lx.tables.row).getD #[]) (hAt.beginToken hstream) hreads
    simp only [hscan]
    rfl

/-- A match that gives no result leaves less than there was. -/
theorem exists_next (hAt : Steady final At) (hk : compile lexicon options = .ok c)
    (hs : lx.Stands c.tables At tabWidth lexicon.states.length stream k) {lx' : Lexer σ}
    {stream' : σ} {kept' : String} {first' : Pos}
    (h : lx.advance stream kept first = .next lx' stream' kept' first') :
    ∃ k', lx'.Stands c.tables At tabWidth lexicon.states.length stream' k' ∧
      k'.rest.length < k.rest.length := by
  obtain ⟨o, hsimulates, hcase⟩ := turn_or_fail hAt hk hs kept first
  rw [h] at hsimulates
  cases o with
  | finish => cases hsimulates
  | next k' kept'' first'' =>
    obtain ⟨-, -, hstands⟩ := hsimulates
    rcases hcase with ⟨hturn, -⟩ | ⟨e, -, hfailure, -⟩
    · have hrest := hturn.rest_ne_nil fun _ _ ho => nomatch ho
      exact ⟨k', hstands, (hturn.of_rest_ne_nil hrest).1⟩
    · cases hfailure

/-- There are no more matches than characters, but for the one that finds no character left. -/
theorem runWithin_eq (hAt : Steady final At) (hk : compile lexicon options = .ok c)
    (hs : lx.Stands c.tables At tabWidth lexicon.states.length stream k)
    (hreads : k.rest.length < reads) (hturns : k.rest.length < turns) :
    runWithin reads turns lx stream kept first = some (lx.run stream kept first) := by
  induction turns generalizing lx stream kept first k with
  | zero => exact absurd hturns (Nat.not_lt_zero _)
  | succ turns ih =>
    obtain ⟨_, hstream⟩ := hs.stream
    rw [runWithin, advanceWithin_eq hAt hstream hreads]
    cases hadvance : lx.advance stream kept first with
    | finish result lx' stream' =>
      rw [run_of_finish hadvance]
      rfl
    | next lx' stream' kept' first' =>
      obtain ⟨k', hs', hlt⟩ := exists_next hAt hk hs hadvance
      rw [run_of_next hadvance]
      exact ih hs' (by omega) (by omega)

/-- A call ends within as many rounds as there are characters left, and one more. -/
theorem nextTokenWithin_eq (hAt : Steady final At) (hk : compile lexicon options = .ok c)
    (hs : lx.Holds c.tables At tabWidth lexicon.states.length k) (hfuel : k.rest.length < fuel) :
    lx.nextTokenWithin fuel = some lx.nextToken := by
  obtain ⟨stream, hinput, hs⟩ := hs
  have hrun : runWithin fuel fuel { lx with lastError := none } stream "" lx.caret.pos = some _ :=
    runWithin_eq hAt hk (hs.withInput lx.input none) hfuel hfuel
  unfold nextTokenWithin nextToken
  rw [hinput] at hrun ⊢
  simp only [hrun]
  split <;> rfl

end Lexer

/-! ### What a result takes -/

namespace Lexicon

variable {o : Outcome}

/-- The token is that of the rule for the end of the input in the lexical state. -/
def IsEofToken (lexicon : Lexicon) (i : Nat) (token : Token) : Prop :=
  ∃ rule, lexicon.EofRule i rule ∧ eofToken rule = some token

/-- A token that is not for the end of the input, or an error about a character. -/
def Consuming (lexicon : Lexicon) (i : Nat) (result : Result) : Prop :=
  (∃ token, result = .ok (some token) ∧ ¬lexicon.IsEofToken i token) ∨
    ∃ info, result = .error (.unrecognizedChar info)

/-- What is left after a turn was left before it. -/
theorem Turn.rest_suffix (h : lexicon.Turn tabWidth k kept first o) : o.after.rest <:+ k.rest := by
  cases h with
  | @matched rule n h =>
    have hdrop : (k.rest.drop n) <:+ k.rest := List.drop_suffix n k.rest
    unfold onMatch
    cases rule.category <;> exact hdrop
  | unrecognized => exact List.drop_suffix 1 k.rest
  | ended => exact List.suffix_refl k.rest

/-- What a call leaves is the end of the text before it, also after kept or dropped parts. -/
theorem Reads.rest_suffix (h : lexicon.Reads tabWidth k kept first result k') :
    k'.rest <:+ k.rest := by
  induction h with
  | finish h => exact h.rest_suffix
  | next h _ ih => exact ih.trans h.rest_suffix

/-- What a call leaves is the end of the text before it. -/
theorem Call.rest_suffix (h : lexicon.Call tabWidth k result k') : k'.rest <:+ k.rest := by
  cases h with
  | ended => exact List.suffix_refl k.rest
  | reads _ hreads => exact hreads.rest_suffix

/-- What the end of the text comes to takes no character. -/
theorem not_consuming_onEnd {eof : Option Rule}
    (heof : ∀ rule, eof = some rule ↔ lexicon.EofRule k.lexState rule)
    (h : .finish result k' = onEnd k kept eof) : ¬lexicon.Consuming k'.lexState result := by
  unfold onEnd at h
  cases h
  by_cases hkept : kept = ""
  · simp only [if_pos hkept]
    rintro (⟨token, htoken, hnot⟩ | ⟨info, hinfo⟩)
    · obtain ⟨rule, hrule, htoken⟩ := Option.bind_eq_some_iff.1 (Except.ok.inj htoken)
      exact hnot ⟨rule, (heof rule).1 hrule, htoken⟩
    · cases hinfo
  · simp only [if_neg hkept]
    rintro (⟨token, htoken, -⟩ | ⟨info, hinfo⟩)
    · cases htoken
    · cases hinfo

/-- A match has at least one character, and so has what is not recognized. -/
theorem Turn.length_lt (h : lexicon.Turn tabWidth k kept first (.finish result k'))
    (hresult : lexicon.Consuming k'.lexState result) : k'.rest.length < k.rest.length := by
  have hrest : k.rest ≠ [] := by
    generalize ho : Outcome.finish result k' = o at h
    cases h with
    | matched h => exact h.rest_ne_nil
    | unrecognized _ hrest => exact hrest ▸ List.cons_ne_nil _ _
    | ended _ heof => exact absurd hresult (not_consuming_onEnd heof ho)
  exact (h.of_rest_ne_nil hrest).1

/-- A call that gives a token or an unrecognized character consumes, whatever it kept. -/
theorem Reads.length_lt (h : lexicon.Reads tabWidth k kept first result k')
    (hresult : lexicon.Consuming k'.lexState result) : k'.rest.length < k.rest.length := by
  induction h with
  | finish h => exact h.length_lt hresult
  | next h _ ih => exact Nat.lt_of_lt_of_le (ih hresult) h.rest_suffix.length_le

/-- A call that gives a token or an unrecognized character consumes. -/
theorem Call.length_lt (h : lexicon.Call tabWidth k result k')
    (hresult : lexicon.Consuming k'.lexState result) : k'.rest.length < k.rest.length := by
  cases h with
  | ended =>
    rcases hresult with ⟨token, htoken, -⟩ | ⟨info, hinfo⟩
    · cases htoken
    · cases hinfo
  | reads _ hreads => exact hreads.length_lt hresult

end Lexicon

/-! ### Calls one after another -/

namespace Lexer

variable {lx : Lexer σ} {i m : Nat}

/-- There are at most `n` results, and nothing behind them. -/
def EndsWithin (lx : Lexer σ) (n : Nat) : Prop :=
  ∃ m ≤ n, (∀ i < m, lx.resultAt i ≠ .ok none) ∧ ∀ i, m ≤ i → lx.resultAt i = .ok none

/-- A further call is made on the lexer after the others. -/
theorem afterCalls_succ (lx : Lexer σ) (n : Nat) :
    lx.afterCalls (n + 1) = (lx.afterCalls n).nextToken.2 := by
  induction n generalizing lx with
  | zero => rfl
  | succ n ih => exact ih lx.nextToken.2

/-- A lexer with no results ends within any number of calls. -/
theorem endsWithin_of_nothing (h : ∀ i, lx.resultAt i = .ok none) : lx.EndsWithin n :=
  ⟨0, Nat.zero_le n, fun _ hi => absurd hi (Nat.not_lt_zero _), fun i _ => h i⟩

/-- One more result. -/
theorem EndsWithin.next (h : EndsWithin lx.nextToken.2 m) (hresult : lx.nextToken.1 ≠ .ok none)
    (hlt : m < n) : lx.EndsWithin n := by
  obtain ⟨m, hm, hbefore, hbehind⟩ := h
  refine ⟨m + 1, by omega, fun i hi => ?_, fun i hi => ?_⟩
  · cases i with
    | zero => exact hresult
    | succ i => exact hbefore i (Nat.lt_of_succ_lt_succ hi)
  · cases i with
    | zero => exact absurd hi (Nat.not_succ_le_zero m)
    | succ i => exact hbehind i (Nat.le_of_succ_le_succ hi)

/-- A call leaves a part of what was left, which is shorter if the result asks for it. -/
theorem exists_step (hAt : Steady final At) (hk : compile lexicon options = .ok c)
    (hs : lx.Holds c.tables At tabWidth lexicon.states.length k) :
    ∃ k', lx.nextToken.2.Holds c.tables At tabWidth lexicon.states.length k' ∧
      k'.rest <:+ k.rest ∧
      (lexicon.Consuming k'.lexState lx.nextToken.1 → k'.rest.length < k.rest.length) := by
  obtain ⟨k', hs', ⟨hcall, -⟩ | ⟨e, -, hfails, -⟩⟩ := call_or_fail hAt hk hs
  · exact ⟨k', hs', hcall.rest_suffix, hcall.length_lt⟩
  · refine ⟨k', hs', hfails.rest_eq ▸ List.nil_suffix, fun hresult => ?_⟩
    rw [hfails.result_eq] at hresult
    rcases hresult with ⟨token, htoken, -⟩ | ⟨info, hinfo⟩
    · cases htoken
    · cases hinfo

/-- The same after any number of calls. -/
theorem exists_holds_afterCalls (hAt : Steady final At) (hk : compile lexicon options = .ok c)
    (hs : lx.Holds c.tables At tabWidth lexicon.states.length k) (n : Nat) :
    ∃ k', (lx.afterCalls n).Holds c.tables At tabWidth lexicon.states.length k' ∧
      k'.rest <:+ k.rest := by
  induction n generalizing lx k with
  | zero => exact ⟨k, hs, List.suffix_refl k.rest⟩
  | succ n ih =>
    obtain ⟨k', hs', hsuffix, -⟩ := exists_step hAt hk hs
    obtain ⟨k'', hs'', hsuffix'⟩ := ih hs'
    exact ⟨k'', hs'', hsuffix'.trans hsuffix⟩

/-- Behind the end of the input there is nothing, however often it is asked for. -/
theorem resultAt_of_ended (hAt : Steady (.ok none) At) (hk : compile lexicon options = .ok c)
    (hs : lx.Holds c.tables At tabWidth lexicon.states.length k) (hended : k.ended = true)
    (i : Nat) : lx.resultAt i = .ok none := by
  have hlast : ∀ {result : Result} {k' : Cursor}, lexicon.Call tabWidth k result k' →
      result = .ok none ∧ k' = k := fun hcall => hcall.eq (.ended hended)
  induction i generalizing lx with
  | zero =>
    obtain ⟨k', -, ⟨hcall, -⟩ | ⟨e, hfinal, -⟩⟩ := call_or_fail hAt hk hs
    · exact (hlast hcall).1
    · cases hfinal
  | succ i ih =>
    obtain ⟨k', hs', ⟨hcall, -⟩ | ⟨e, hfinal, -⟩⟩ := call_or_fail hAt hk hs
    · obtain ⟨-, rfl⟩ := hlast hcall
      exact ih hs'
    · cases hfinal

/-- Each result before the end takes a character, and the end gives one more at most. The induction
is on what is left of the text. -/
theorem endsWithin_of_holds (hAt : Steady (.ok none) At) (hk : compile lexicon options = .ok c)
    (hs : lx.Holds c.tables At tabWidth lexicon.states.length k) (hended : k.ended = false) :
    lx.EndsWithin (k.rest.length + 1) := by
  -- The induction is on the length of what is left. A call that does not end the input leaves less.
  induction hlength : k.rest.length using Nat.strongRecOn generalizing lx k with
  | ind length ih =>
    obtain ⟨k', hs', ⟨hcall, -⟩ | ⟨e, hfinal, -⟩⟩ := call_or_fail hAt hk hs
    · cases hended' : k'.ended with
      | false =>
        obtain ⟨hproper, hlt, -⟩ := (hcall.reads_of_not_ended hended).of_not_ended hended'
        have hresult : lx.nextToken.1 ≠ .ok none := by
          rcases hproper with ⟨token, htoken, -⟩ | ⟨info, hinfo⟩
          · simp [htoken]
          · simp [hinfo]
        have hlater := ih k'.rest.length (hlength ▸ hlt) hs' hended' rfl
        exact hlater.next hresult (by omega)
      | true =>
        have hnothing := resultAt_of_ended hAt hk hs' hended'
        by_cases hresult : lx.nextToken.1 = .ok none
        · refine endsWithin_of_nothing fun i => ?_
          cases i with
          | zero => exact hresult
          | succ i => exact hnothing i
        · exact (endsWithin_of_nothing hnothing).next hresult (Nat.lt_succ_self length)
    · cases hfinal

/-- A lexer reads a source with a finite text. Every call ends: no loop of it has more rounds than
there are characters left, and one. A token that is not for the end of the input takes at least one
character of the text, and so does an error about a character. If the source ends behind the text,
there are at most as many results as characters, and one, and then there is nothing any more. -/
theorem tokens_progress {lx : Lexer Reader} (hk : compile lexicon options = .ok c)
    (hlx : lx.Built c.tables) {source : Source} {text : List Char}
    (hgives : Reader.Gives source text final) :
    let start := lx.attach { source }
    (∀ i, ∃ r r', (start.afterCalls i).input = some r ∧
      (start.afterCalls (i + 1)).input = some r' ∧
      (start.afterCalls i).nextTokenWithin ((CharStream.text r).length + 1) =
        some (start.afterCalls i).nextToken ∧
      CharStream.text r <:+ text ∧ CharStream.text r' <:+ CharStream.text r ∧
      (lexicon.Consuming (start.afterCalls (i + 1)).lexState (start.resultAt i) →
        (CharStream.text r').length < (CharStream.text r).length)) ∧
    (final = .ok none → start.EndsWithin (text.length + 1)) := by
  intro start
  have hAt := Reader.steady_along text hgives.ne_some
  have hstart := holds_attach_of_at hk lx hlx hgives.along
  constructor
  · intro i
    obtain ⟨k, hs, hsuffix⟩ := exists_holds_afterCalls hAt hk hstart i
    obtain ⟨k', hs', hsuffix', hlt⟩ := exists_step hAt hk hs
    have hends := nextTokenWithin_eq hAt hk hs (Nat.lt_succ_self _)
    rw [afterCalls_succ]
    obtain ⟨r, hr, hstands⟩ := hs
    obtain ⟨r', hr', hstands'⟩ := hs'
    obtain ⟨taken, halong⟩ := hstands.stream
    obtain ⟨taken', halong'⟩ := hstands'.stream
    refine ⟨r, r', hr, hr', ?_⟩
    rw [hAt.text_eq halong, hAt.text_eq halong', hstands'.lexState]
    exact ⟨hends, hsuffix, hsuffix', hlt⟩
  · intro hfinal
    subst hfinal
    exact endsWithin_of_holds hAt hk hstart rfl

/-- A lexer of the sample lexicon on a text that no rule matches at two places. -/
theorem tokens_progress_words : ∃ c, compile Lexicon.words Options.quiet = .ok c ∧
    Reader.Gives (.ofString (String.ofList "abb c b".toList)) "abb c b".toList (.ok none) ∧
    let start : Lexer Reader :=
      (ofTables c.tables).attach { source := .ofString (String.ofList "abb c b".toList) }
    (∀ i, ∃ r, (start.afterCalls i).input = some r ∧
      (start.afterCalls i).nextTokenWithin ((CharStream.text r).length + 1) =
        some (start.afterCalls i).nextToken) ∧
    start.EndsWithin 8 := by
  obtain ⟨c, hc⟩ := exists_compile rfl hasNoErrors_words rfl
  have hgives := (Reader.along_ofString "abb c b".toList).gives
  obtain ⟨hcalls, hends⟩ := tokens_progress hc .ofTables hgives
  refine ⟨c, hc, hgives, fun i => ?_, hends rfl⟩
  obtain ⟨r, _, hr, _, hwithin, _⟩ := hcalls i
  exact ⟨r, hr, hwithin⟩

end Lexer

end Lexwright

import Lexwright.Proofs.Lexer.Positions
import Lexwright.Proofs.Lexer.Progress

/-!
# `Lexwright.Proofs.Lexer.Items`: the items of a lexer are its results

The iterator over the tokens of a lexer keeps an error about a character apart from its wording,
which it asks the lexer for when it reports the error. Between the two no call is made, so the
wording is that of the error, and the iterator is back where it reads on.

* `Lexer.itemOf`: the item for a result.
* `Lexer.next_tokens`: one item is one call. `afterNexts_tokens` and `items_eq` say it of many.
* `Lexer.left`: what a lexer can still give. `left_nextToken_lt` says that a call after which there
  is more to give leaves less, for any stream.
* `Lexer.Moves`: what a run of matches has to do with its result.
* `Lexer.items_agree`: the items and the results, up to the first item that is none.
-/

set_option autoImplicit false

namespace Lexwright

variable {σ : Type} [CharStream σ] {t : Tables} {tabWidth : Nat} {start : Caret} {w : List Char}

namespace Lexer

variable {lx lx' : Lexer σ} {stream stream' : σ} {kept : String} {first : Pos} {result : Result}

/-! ### One item is one call -/

/-- The item for a result: a token as it is, and for an unrecognized character the wording of the
error, at the position of the character. -/
def itemOf : Result → Option Token
  | .ok token => token
  | .error (.unrecognizedChar info) =>
    some ⟨errorKind, 0, (LexError.unrecognizedChar info).display,
      ⟨info.caret.pos, info.caret.pos⟩⟩
  | .error _ => none

/-- The items go on exactly while the results do. -/
theorem isSome_itemOf (result : Result) : (itemOf result).isSome = goesOn result := by
  cases result with
  | ok token => cases token <;> rfl
  | error e => cases e <;> rfl

/-- A lexer keeps the error that it returns. -/
theorem lastError_nextToken {e : LexError} (h : lx.nextToken.1 = .error e) :
    lx.nextToken.2.lastError = some e := by
  cases hinput : lx.input with
  | none =>
    rw [nextToken_of_detached lx hinput] at h ⊢
    cases h
    rfl
  | some stream =>
    by_cases heos : lx.isEos = true
    · rw [nextToken_of_ended lx hinput heos] at h
      cases h
    · rcases hrun : run { lx with lastError := none } stream "" lx.caret.pos with
        ⟨result, lx', stream'⟩
      rw [nextToken_of_attached lx hinput heos hrun] at h ⊢
      cases h
      rfl

/-- The next item is that for the result of a call, and the iterator reads on after it. -/
theorem next_tokens (lx : Lexer σ) :
    lx.tokens.next = (itemOf lx.nextToken.1, lx.nextToken.2.tokens) := by
  have hlast := @lastError_nextToken σ _ lx
  unfold Items.next tokens
  rcases hcall : lx.nextToken with ⟨result, after⟩
  rw [hcall] at hlast
  cases result with
  | ok token => rfl
  | error e =>
    cases e with
    | unrecognizedChar info =>
      -- The wording is that of the lexer's last error, which is the one that it returned.
      have hlast : after.lastError = some (.unrecognizedChar info) := hlast rfl
      simp only [Items.report, hlast]
      rfl
    | noStream | endOfStream | noSuchLexState | stream => rfl

/-- An iterator after `n` items were asked for. -/
def Items.afterNexts (it : Items σ) : Nat → Items σ
  | 0 => it
  | n + 1 => afterNexts it.next.2 n

/-- What an iterator gives after `n` items were asked for. -/
def Items.itemAt (it : Items σ) (n : Nat) : Option Token := (it.afterNexts n).next.1

/-- The iterator moves with the calls of its lexer. -/
theorem afterNexts_tokens (lx : Lexer σ) (n : Nat) :
    lx.tokens.afterNexts n = (lx.afterCalls n).tokens := by
  induction n generalizing lx with
  | zero => rfl
  | succ n ih =>
    unfold Items.afterNexts
    rw [next_tokens]
    exact ih lx.nextToken.2

/-- Each item is that of the result of the same call. -/
theorem itemAt_tokens (lx : Lexer σ) (n : Nat) :
    lx.tokens.itemAt n = itemOf (lx.resultAt n) := by
  unfold Items.itemAt
  rw [afterNexts_tokens, next_tokens]
  rfl

/-- The first items are those of the first results. -/
theorem take_tokens (lx : Lexer σ) (n : Nat) :
    lx.tokens.take n = ((lx.results n).1.filterMap itemOf, (lx.results n).2.tokens) := by
  induction n generalizing lx with
  | zero => rfl
  | succ n ih =>
    unfold Items.take results
    rw [next_tokens]
    have hgoesOn := isSome_itemOf lx.nextToken.1
    cases hitem : itemOf lx.nextToken.1 with
    | none =>
      rw [hitem] at hgoesOn
      simp [← hgoesOn, hitem]
    | some item =>
      rw [hitem] at hgoesOn
      simp [← hgoesOn, hitem, ih]

/-- The items up to a number are those for the results up to this number. -/
theorem items_eq (lx : Lexer σ) (n : Nat) :
    lx.items n = ((lx.results n).1.filterMap itemOf, (lx.results n).2) := by
  unfold items
  rw [take_tokens]
  rfl

/-! ### A call leaves less -/

/-- Whatever the stream does, a scan has read a text. -/
theorem exists_has_scanFrom (x : Scan σ) (active : Array Nat) (hx : x.Has tabWidth start w) :
    ∃ v, (scanFrom t tabWidth x active).Has tabWidth start v := by
  fun_induction scanFrom t tabWidth x active generalizing w with
  | case1 => exact ⟨w, hx.read, hx.caret, hx.first, hx.best⟩
  | case2 => exact ⟨w, hx.read, hx.caret, hx.first, hx.best⟩
  | case3 x active c stream => exact ⟨_, hx.next active stream c⟩
  | case4 x active c stream _ _ _ _ =>
    rename_i ih
    exact ih (hx.next active stream c)

/-- What a scan has read is no longer left in the stream. -/
theorem exists_scan (lx : Lexer σ) (stream : σ) (entry : LexEntry) :
    ∃ v, (lx.scan (CharStream.beginToken stream) entry).Has lx.tabWidth lx.caret v ∧
      CharStream.remaining (lx.scan (CharStream.beginToken stream) entry).stream + v.length ≤
        CharStream.remaining stream := by
  obtain ⟨v, hhas⟩ := @exists_has_scanFrom σ _ lx.tables lx.tabWidth lx.caret []
    { stream := CharStream.beginToken stream, caret := lx.caret, marks := lx.marks }
    ((entry.startRow.map lx.tables.row).getD #[]) ⟨rfl, rfl, rfl, fun _ hm => nomatch hm⟩
  have hread := remaining_scanFrom_le lx.tables lx.tabWidth
    { stream := CharStream.beginToken stream, caret := lx.caret, marks := lx.marks }
    ((entry.startRow.map lx.tables.row).getD #[])
  rw [hhas.read] at hread
  exact ⟨v, hhas, hread.trans (CharStream.remaining_beginToken_le stream)⟩

/-- What a run of matches leaves with its result. If there is more to give then, a part of the
stream was used up, or the end of the input was reached. If the result is about a character, the
lexer stands behind the character. -/
structure Moves (lx : Lexer σ) (stream : σ) (result : Result) (lx' : Lexer σ) (stream' : σ) :
    Prop where
  less : goesOn result = true →
    CharStream.remaining stream' < CharStream.remaining stream ∨ lx'.isEos = true
  place : ∀ info, result = .error (.unrecognizedChar info) →
    ∃ c, info.char = some c ∧ lx'.caret = info.caret.advance lx.tabWidth c

/-- Of a result that ends the items nothing is asked. -/
theorem Moves.of_stop (h : goesOn result = false) : lx.Moves stream result lx' stream' := by
  refine ⟨fun hgoesOn => ?_, fun info hresult => ?_⟩
  · rw [h] at hgoesOn
    cases hgoesOn
  · rw [hresult] at h
    cases h

/-- A stream that cannot go back ends the results. -/
theorem goesOn_of_putBack {n count : Nat} {e : LexError} (h : putBack stream n count = .error e) :
    goesOn (.error e) = false := by
  unfold putBack at h
  split at h
  · cases h
  · split at h
    · cases h
    · cases h
      rfl

/-- A match that gives a token has used up its characters. -/
theorem moves_take {m : Match} {s : σ}
    (hless : CharStream.remaining s < CharStream.remaining stream) {lx₁ : Lexer σ}
    (h : lx₁.take s kept first m = .finish result lx' stream') :
    lx.Moves stream result lx' stream' := by
  unfold take at h
  simp only at h
  split at h
  · cases h
  · cases h
  · cases h
    exact ⟨fun _ => Or.inl hless, fun _ hresult => nomatch hresult⟩
  · cases h
    exact ⟨fun _ => Or.inl hless, fun _ hresult => nomatch hresult⟩

/-- If the end of the input gives a token, the lexer is at the end behind it. -/
theorem moves_finishInput {s : σ} {entry : LexEntry} {lx₁ : Lexer σ}
    (h : lx₁.finishInput s kept entry = .finish result lx' stream') :
    lx.Moves stream result lx' stream' := by
  unfold finishInput at h
  simp only at h
  split at h
  · cases h
    exact ⟨fun _ => Or.inr rfl, fun _ hresult => nomatch hresult⟩
  · cases h
    exact .of_stop rfl

/-- Settling after a scan moves forward where the scan did. -/
theorem moves_settle {entry : LexEntry} {x : Scan σ} {v : List Char}
    (hhas : x.Has lx.tabWidth lx.caret v)
    (hread : CharStream.remaining x.stream + v.length ≤ CharStream.remaining stream)
    (h : lx.settle entry x kept first = .finish result lx' stream') :
    lx.Moves stream result lx' stream' := by
  have hsettles := settles_settle lx entry x kept first
  rw [← hhas.read] at hread
  generalize ha : lx.settle entry x kept first = a at hsettles
  rw [ha] at h
  cases hsettles with
  | matched hbest hput =>
    -- A match has a character at least, so not everything is put back.
    obtain ⟨hpos, hle, -, -⟩ := hhas.best _ hbest
    have hback := remaining_putBack_le hput
    exact moves_take (by rw [← hhas.read] at hle; omega) h
  | failed =>
    cases h
    exact .of_stop rfl
  | ended => exact moves_finishInput h
  | dropped _ _ hfirst hput =>
    rw [hhas.first] at hfirst
    obtain ⟨d, hd, hdrop⟩ := Option.map_eq_some_iff.1 hfirst
    cases hdrop
    -- All but the first character is put back.
    have hpos : 1 ≤ v.length := List.length_pos_of_mem (List.mem_of_mem_head? hd)
    rw [← hhas.read] at hpos
    have hback := remaining_putBack_le hput
    cases h
    refine ⟨fun _ => Or.inl (by omega), fun info hresult => ?_⟩
    cases hresult
    exact ⟨_, rfl, rfl⟩
  | stuck hput =>
    cases h
    exact .of_stop (goesOn_of_putBack hput)

/-- One turn of a call moves forward. -/
theorem moves_advance (h : lx.advance stream kept first = .finish result lx' stream') :
    lx.Moves stream result lx' stream' := by
  cases hentry : lx.tables.lexStates[lx.lexState]? with
  | none =>
    rw [advance_of_missing hentry] at h
    cases h
    exact .of_stop rfl
  | some entry =>
    rw [advance_of_entry hentry] at h
    obtain ⟨v, hhas, hread⟩ := exists_scan lx stream entry
    exact moves_settle hhas hread h

/-- A call moves forward over all of its turns. -/
theorem moves_run (h : lx.run stream kept first = (result, lx', stream')) :
    lx.Moves stream result lx' stream' := by
  fun_induction run lx stream kept first with
  | case1 lx stream kept first result lx' stream' hadvance =>
    cases h
    exact moves_advance hadvance
  | case2 lx stream kept first lx' stream' kept' first' hadvance hlt ih =>
    have hmoves := ih h
    have htab := tabWidth_advance lx stream kept first
    rw [hadvance] at htab
    refine ⟨fun hgoesOn => (hmoves.less hgoesOn).imp_left (·.trans hlt), fun info hresult => ?_⟩
    rw [← show lx'.tabWidth = lx.tabWidth from htab]
    exact hmoves.place info hresult

/-- A call after which there is more to give is a run of matches. -/
theorem exists_moves (h : goesOn lx.nextToken.1 = true) : ∃ stream stream', lx.input = some stream ∧
    ¬lx.isEos = true ∧ lx.nextToken.2.input = some stream' ∧
    lx.Moves stream lx.nextToken.1 lx.nextToken.2 stream' := by
  cases hinput : lx.input with
  | none =>
    rw [nextToken_of_detached lx hinput] at h
    cases h
  | some stream =>
    by_cases heos : lx.isEos = true
    · rw [nextToken_of_ended lx hinput heos] at h
      cases h
    · rcases hrun : run { lx with lastError := none } stream "" lx.caret.pos with
        ⟨result, lx', stream'⟩
      rw [nextToken_of_attached lx hinput heos hrun]
      have hmoves := moves_run hrun
      exact ⟨stream, stream', rfl, heos, rfl, hmoves.less, hmoves.place⟩

/-- A bound on the calls after which there is more to give. -/
def left (lx : Lexer σ) : Nat :=
  match lx.input with
  | some stream => if lx.isEos then 0 else CharStream.remaining stream + 1
  | none => 0

/-- A call whose result goes on leaves less of the input. -/
theorem left_nextToken_lt (h : goesOn lx.nextToken.1 = true) : lx.nextToken.2.left < lx.left := by
  obtain ⟨stream, stream', hinput, heos, hinput', hmoves⟩ := exists_moves h
  unfold left
  rw [hinput, hinput']
  simp only [if_neg heos]
  split
  · exact Nat.zero_lt_succ _
  · rename_i heos'
    have := (hmoves.less h).resolve_right heos'
    omega

/-- There is a first result after which there is nothing more to give. -/
theorem exists_stop (lx : Lexer σ) :
    ∃ n, (∀ i < n, goesOn (lx.resultAt i) = true) ∧ goesOn (lx.resultAt n) = false := by
  induction hleft : lx.left using Nat.strongRecOn generalizing lx with
  | ind left ih =>
    cases hgoesOn : goesOn lx.nextToken.1 with
    | false => exact ⟨0, fun i hi => absurd hi (Nat.not_lt_zero i), hgoesOn⟩
    | true =>
      subst hleft
      obtain ⟨n, hbefore, hstop⟩ := ih _ (left_nextToken_lt hgoesOn) lx.nextToken.2 rfl
      refine ⟨n + 1, fun i hi => ?_, hstop⟩
      cases i with
      | zero => exact hgoesOn
      | succ i => exact hbefore i (Nat.lt_of_succ_lt_succ hi)

/-- Calls keep the width of a tab. -/
theorem tabWidth_afterCalls (lx : Lexer σ) (n : Nat) :
    (lx.afterCalls n).tabWidth = lx.tabWidth := by
  induction n generalizing lx with
  | zero => rfl
  | succ n ih => exact (ih lx.nextToken.2).trans (tabWidth_nextToken lx)

/-- The items are, in their order, those for the results, up to the first result that is neither a
token nor an error about a character. There is one, and no item for it. Then the lexer of the
iterator is in the state of one that was called as often. An item for a character is at its
position: the lexer that has returned the error stands behind the character. -/
theorem items_agree (lx : Lexer σ) :
    (∃ n, (∀ i < n, goesOn (lx.resultAt i) = true ∧ (lx.tokens.itemAt i).isSome ∧
          lx.tokens.itemAt i = itemOf (lx.resultAt i)) ∧
        goesOn (lx.resultAt n) = false ∧ lx.tokens.itemAt n = none ∧
        (lx.tokens.afterNexts (n + 1)).lexer = lx.afterCalls (n + 1)) ∧
      (∀ n, lx.items n = ((lx.results n).1.filterMap itemOf, (lx.results n).2)) ∧
      ∀ i info, lx.resultAt i = .error (.unrecognizedChar info) → ∃ c, info.char = some c ∧
        (lx.afterCalls (i + 1)).caret = info.caret.advance lx.tabWidth c := by
  refine ⟨?_, items_eq lx, fun i info hresult => ?_⟩
  · obtain ⟨n, hbefore, hstop⟩ := exists_stop lx
    refine ⟨n, fun i hi => ⟨hbefore i hi, ?_, itemAt_tokens lx i⟩, hstop, ?_, ?_⟩
    · rw [itemAt_tokens, isSome_itemOf]
      exact hbefore i hi
    · rw [itemAt_tokens, ← Option.not_isSome_iff_eq_none, isSome_itemOf, hstop]
      exact Bool.false_ne_true
    · rw [afterNexts_tokens]
      rfl
  · have hgoesOn : goesOn (lx.afterCalls i).nextToken.1 = true := by
      rw [show (lx.afterCalls i).nextToken.1 = _ from hresult]
      rfl
    obtain ⟨_, _, -, -, -, hmoves⟩ := exists_moves hgoesOn
    rw [afterCalls_succ, ← tabWidth_afterCalls lx i]
    exact hmoves.place info hresult

end Lexer

end Lexwright

import Lexwright.Lexer.Basic
import Lexwright.Proofs.Lexer.Step
import Lexwright.Proofs.LongestMatch
import Lexwright.Proofs.Stream.Reader

/-!
# `Lexwright.Proofs.Lexer.Scan`: a scan finds the longest match

* `Tables.Serves.chosen_scanFrom`: a scan with the tables of an automaton chooses what the lexical
  state selects from the text of the stream.
* `Lexer.settle`: what a call does with the outcome of its scan, and `Lexer.Settles` its cases.
* `Lexer.Built`: the lexers that there are for some tables, after any calls.
* `Lexer.scan_selects`: the scan of a lexer, in terms of the languages of the rules.
* `Lexer.scan_agrees`: the scan of a lexer, in terms of the engine.
-/

set_option autoImplicit false

namespace Lexwright

variable {σ : Type} [CharStream σ]

open CharStream (text text_of_read text_of_end text_of_error exists_read)

variable {s rest : σ} {c : Char} {t : Tables} {tabWidth n i q : Nat}

/-! ### One character after another -/

section Scan

variable {x : Scan σ} {active : Array Nat} {stream : σ}

/-- The scan ends with the text. -/
theorem scanFrom_of_end (h : CharStream.read x.stream = (.ok none, stream)) :
    scanFrom t tabWidth x active = { x with stream } := by
  rw [scanFrom]
  split <;> simp_all

/-- The scan ends with an error of the stream, which it keeps. -/
theorem scanFrom_of_error {e : StreamError} (h : CharStream.read x.stream = (.error e, stream)) :
    scanFrom t tabWidth x active = { x with stream, error := some e } := by
  rw [scanFrom]
  split <;> simp_all

/-- After a character the scan goes on while states are active. -/
theorem scanFrom_of_read {c : Char} (h : CharStream.read x.stream = (.ok (some c), stream)) :
    scanFrom t tabWidth x active =
      if (x.next t tabWidth active stream c).2.isEmpty then (x.next t tabWidth active stream c).1
      else scanFrom t tabWidth (x.next t tabWidth active stream c).1
        (x.next t tabWidth active stream c).2 := by
  rw [scanFrom]
  split <;> simp_all

end Scan

/-! ### Scans with the tables of an automaton -/

/-- What a scan has chosen: the rule and the length of its longest match. -/
def Scan.choice (x : Scan σ) : Option (Nat × Nat) := x.best.map fun m => (m.rule, m.length)

omit [CharStream σ] in
/-- The choice is the rule accepted last, with its length. -/
theorem choice_next (x : Scan σ) (active : Array Nat) (stream : σ) (c : Char) :
    (x.next t tabWidth active stream c).1.choice =
      ((t.step x.marks active c).2.map (·, x.read + 1)).or x.choice := by
  rcases hstep : t.step x.marks active c with ⟨found, rule⟩
  unfold Scan.next Scan.choice
  rw [hstep]
  cases rule with
  | none => rfl
  | some r => rfl

/-- A scan never reads more than the text. -/
theorem read_scanFrom_le (x : Scan σ) (active : Array Nat) :
    (scanFrom t tabWidth x active).read ≤ x.read + (text x.stream).length := by
  fun_induction scanFrom t tabWidth x active with
  | case1 x active stream h => exact Nat.le_add_right ..
  | case2 x active e stream h => exact Nat.le_add_right ..
  | case3 x active c stream h _ after hempty =>
    rw [text_of_read h, List.length_cons]
    show x.read + 1 ≤ _
    omega
  | case4 x active c stream h _ after hempty ih =>
    rw [text_of_read h, List.length_cons]
    have : (scanFrom t tabWidth after.1 after.2).read ≤ x.read + 1 + (text stream).length := ih
    omega

namespace Tables

/-- A scan keeps the marks sound. -/
theorem sound_marks_scanFrom (hfits : ∀ {r q : Nat}, q ∈ t.row r → q < n) (x : Scan σ)
    (active : Array Nat) (hmarks : x.marks.Sound n) :
    (scanFrom t tabWidth x active).marks.Sound n := by
  -- Only the marks matter here, so the rule of a row may be any one: its own.
  have hnext : ∀ {x : Scan σ} {active : Array Nat} {stream : σ} {c : Char}, x.marks.Sound n →
      (x.next t tabWidth active stream c).1.marks.Sound n := by
    intro x active stream c hmarks
    obtain ⟨htouched, -⟩ := @step_eq _ t c hfits _ hmarks active
      (fun r id => t.rowRule r = some id) fun p _ r _ => by
        cases t.rowRule r with
        | none => exact fun id h => nomatch h
        | some id => exact ⟨rfl, fun id' h => Nat.le_of_eq (Option.some.inj h)⟩
    exact htouched.sound
  fun_induction scanFrom t tabWidth x active with
  | case1 => exact hmarks
  | case2 => exact hmarks
  | case3 => exact hnext hmarks
  | case4 _ _ _ _ _ _ _ _ ih => exact ih (hnext hmarks)

variable {a : Automaton} {lexicon : Lexicon} {info : LexStateInfo} {w : List Char}
  {set : StateSet}

/-- A scan chooses what the lexical state selects. The induction carries the set of the engine
for the text read so far. -/
theorem Serves.chosen_scanFrom (ht : t.Serves a) (h : a.Implements lexicon)
    (hinfo : a.lexStates[i]? = some info) (x : Scan σ) (active : Array Nat)
    (hread : x.read = w.length) (hmarks : x.marks.Sound t.transitions.size)
    (hactive : t.Follows a active set) (hset : a.Tracks info.start w set)
    (hchosen : lexicon.Chosen i w x.choice) :
    lexicon.Chosen i (w ++ text x.stream) (scanFrom t tabWidth x active).choice := by
  fun_induction scanFrom t tabWidth x active generalizing w set with
  | case1 x active stream hstream =>
    rw [text_of_end hstream, List.append_nil]
    exact hchosen
  | case2 x active e stream hstream =>
    rw [text_of_error hstream, List.append_nil]
    exact hchosen
  | case3 x active c stream hstream _ after =>
    rename_i hempty
    obtain ⟨-, hmem, -, hlowest⟩ := ht.step h hmarks hactive (hset.inLexState h hinfo) c
    -- No state is active, so the engine has none either, and nothing longer can be selected.
    have hnone : ∀ q, ¬q ∈ (Engine.ofAutomaton a).step set c := by
      intro q hq
      have hmem' : q ∈ after.2 := (hmem q).2 hq
      rw [Array.isEmpty_iff.1 hempty] at hmem'
      exact Array.not_mem_empty q hmem'
    have hrule : (t.step x.marks active c).2 = none := by
      cases hrule : (t.step x.marks active c).2 with
      | none => rfl
      | some id =>
        rw [hrule] at hlowest
        obtain ⟨_, ⟨q, hq, _⟩, _⟩ := hlowest.1
        exact absurd hq (hnone q)
    have hchoice : after.1.choice = x.choice := by
      rw [show after.1.choice = _ from choice_next x active stream c, hrule]
      rfl
    rw [hchoice, text_of_read hstream]
    refine (hset.step h.separate).chosen_of_isEmpty h hinfo ?_ hchosen
    exact List.isEmpty_iff.2 (List.eq_nil_iff_forall_not_mem.2 hnone)
  | case4 x active c stream hstream _ after hempty =>
    rename_i ih
    obtain ⟨htouched, hmem, hfollows, hlowest⟩ :=
      ht.step h hmarks hactive (hset.inLexState h hinfo) c
    have hnext := hset.step h.separate (c := c)
    have happend : w ++ text x.stream = (w ++ [c]) ++ text stream := by
      rw [text_of_read hstream, List.append_assoc, List.singleton_append]
    rw [happend]
    refine @ih (w ++ [c]) ((Engine.ofAutomaton a).step set c) ?_ htouched.sound hfollows hnext ?_
    · show x.read + 1 = _
      rw [hread, List.length_append, List.length_singleton]
    · rw [show after.1.choice = _ from choice_next x active stream c, hread]
      exact hchosen.concat (hnext.isFirst h hinfo hlowest)

end Tables

/-- What a scan has read after `n` characters, and the states that are active then. -/
def Scan.after (t : Tables) (tabWidth : Nat) : Nat → Scan σ → Array Nat → Scan σ × Array Nat
  | 0, x, active => (x, active)
  | n + 1, x, active =>
    match CharStream.read x.stream with
    | (.ok (some c), stream) =>
      let next := x.next t tabWidth active stream c
      after t tabWidth n next.1 next.2
    | _ => (x, active)

/-- One step more is made before the others. -/
theorem Scan.after_succ {x : Scan σ} {active : Array Nat} {stream : σ}
    (h : CharStream.read x.stream = (.ok (some c), stream)) :
    Scan.after t tabWidth (n + 1) x active =
      Scan.after t tabWidth n (x.next t tabWidth active stream c).1
        (x.next t tabWidth active stream c).2 := by
  rw [Scan.after, h]

/-- A scan stops after as many characters as it has read. -/
theorem exists_after_eq_scanFrom (x : Scan σ) (active : Array Nat) :
    ∃ n, (scanFrom t tabWidth x active).read = x.read + n ∧
      (scanFrom t tabWidth x active).best = (Scan.after t tabWidth n x active).1.best := by
  fun_induction scanFrom t tabWidth x active with
  | case1 => exact ⟨0, rfl, rfl⟩
  | case2 => exact ⟨0, rfl, rfl⟩
  | case3 x active c stream h =>
    refine ⟨1, rfl, ?_⟩
    rw [Scan.after_succ h]
    rfl
  | case4 x active c stream h _ _ _ ih =>
    obtain ⟨n, hread, hbest⟩ := ih
    refine ⟨n + 1, ?_, ?_⟩
    · rw [hread]
      show x.read + 1 + n = x.read + (n + 1)
      omega
    · rw [hbest, Scan.after_succ h]

/-- After each character the active states are those of the engine, each listed once. -/
theorem Tables.Serves.after {a : Automaton} {lexicon : Lexicon} {set : StateSet}
    (ht : t.Serves a) (h : a.Implements lexicon) (x : Scan σ) (active : Array Nat)
    (hmarks : x.marks.Sound t.transitions.size) (hactive : t.Follows a active set)
    (hset : ∀ q ∈ set, a.InLexState i q) (hn : n + 1 ≤ (text x.stream).length) :
    (Scan.after t tabWidth (n + 1) x active).2.toList.Nodup ∧
      ∀ q, q ∈ (Scan.after t tabWidth (n + 1) x active).2 ↔
        q ∈ ((text x.stream).take (n + 1)).foldl (Engine.ofAutomaton a).step set := by
  induction n generalizing x active set with
  | zero =>
    obtain ⟨c, stream, hread, hu⟩ := exists_read (List.length_pos_iff.1 hn)
    obtain ⟨htouched, hmem, -, -⟩ := ht.step h hmarks hactive hset c
    rw [Scan.after_succ hread, hu, List.take_succ_cons, List.foldl_cons]
    exact ⟨htouched.nodup, hmem⟩
  | succ n ih =>
    -- The first character goes one step, and the others follow from the states after it.
    obtain ⟨c, stream, hread, hu⟩ := exists_read (s := x.stream)
      (List.length_pos_iff.1 (Nat.lt_of_lt_of_le (Nat.zero_lt_succ _) hn))
    obtain ⟨htouched, -, hfollows, -⟩ := ht.step h hmarks hactive hset c
    rw [hu, List.length_cons] at hn
    rw [Scan.after_succ hread, hu, List.take_succ_cons, List.foldl_cons]
    exact ih _ _ htouched.sound hfollows (fun q hq => h.inLexState_of_mem_step hset hq)
      (Nat.le_of_succ_le_succ hn)

/-! ### Lexers -/

namespace Lexer

/-- The lexers that there are for some tables: a new one, and what the calls of a user make of
one. -/
inductive Built (tables : Tables) : Lexer σ → Prop where
  | ofTables : Built tables (ofTables tables)
  | attach {lx : Lexer σ} (h : Built tables lx) (input : σ) : Built tables (lx.attach input)
  | detach {lx : Lexer σ} (h : Built tables lx) : Built tables lx.detach.2
  | setLexState {lx : Lexer σ} (h : Built tables lx) (lexState : Nat) :
    Built tables (lx.setLexState lexState)
  | setTabWidth {lx : Lexer σ} (h : Built tables lx) (width : Nat) :
    Built tables (lx.setTabWidth width)
  | skipChar {lx : Lexer σ} (h : Built tables lx) (c : Char) : Built tables (lx.skipChar c)
  | nextToken {lx : Lexer σ} (h : Built tables lx) : Built tables lx.nextToken.2

/-- The lexer has these tables, and its marks are sound. -/
structure Ready (tables : Tables) (lx : Lexer σ) : Prop where
  tables_eq : lx.tables = tables
  sound : lx.marks.Sound tables.transitions.size

variable {tables : Tables} {lx : Lexer σ}

/-! ### One match -/

section Advance

variable {entry : LexEntry} {x : Scan σ} {stream : σ} {kept : String} {first : Pos}

/-- What a lexer does with a scan that it made in a lexical state. -/
def settle (lx : Lexer σ) (entry : LexEntry) (x : Scan σ) (kept : String) (first : Pos) :
    Advance σ :=
  let start := lx.caret
  let lx := { lx with caret := x.caret, marks := x.marks }
  match x.best with
  | some m =>
    match putBack x.stream (x.read - m.length) x.caret.count with
    | .ok stream => lx.take stream kept first m
    | .error e => .finish (.error e) lx x.stream
  | none =>
    match x.error, x.first with
    | some e, _ => .finish (.error (.stream x.caret.count e)) lx x.stream
    | none, none => lx.finishInput x.stream kept entry
    | none, some (c, after) =>
      match putBack x.stream (x.read - 1) x.caret.count with
      | .ok stream => lx.drop stream kept start c after
      | .error e => .finish (.error e) lx x.stream

/-- Without an entry for its state a turn ends with an error. -/
theorem advance_of_missing (h : lx.tables.lexStates[lx.lexState]? = none) :
    lx.advance stream kept first =
      .finish (.error (.noSuchLexState (lx.errorInfo kept))) lx (CharStream.beginToken stream) := by
  unfold advance
  rw [h]

/-- A turn scans from the entry of its state and settles what was found. -/
theorem advance_of_entry (hentry : lx.tables.lexStates[lx.lexState]? = some entry) :
    lx.advance stream kept first =
      lx.settle entry (lx.scan (CharStream.beginToken stream) entry) kept first := by
  unfold advance
  rw [hentry]
  rfl

/-- What comes of a scan: its match is taken, or its failure is the result, or the input is at its
end, or a character is dropped. For a match and for a character the stream has to go back. -/
inductive Settles (lx : Lexer σ) (entry : LexEntry) (x : Scan σ) (kept : String) (first : Pos) :
    Advance σ → Prop where
  | matched {m : Match} {s : σ} (hbest : x.best = some m)
      (hput : putBack x.stream (x.read - m.length) x.caret.count = .ok s) :
      Settles lx entry x kept first
        (take { lx with caret := x.caret, marks := x.marks } s kept first m)
  | failed {e : StreamError} (hbest : x.best = none) (herror : x.error = some e) :
      Settles lx entry x kept first (.finish (.error (.stream x.caret.count e))
        { lx with caret := x.caret, marks := x.marks } x.stream)
  | ended (hbest : x.best = none) (herror : x.error = none) (hfirst : x.first = none) :
      Settles lx entry x kept first
        (finishInput { lx with caret := x.caret, marks := x.marks } x.stream kept entry)
  | dropped {c : Char} {after : Caret} {s : σ} (hbest : x.best = none) (herror : x.error = none)
      (hfirst : x.first = some (c, after))
      (hput : putBack x.stream (x.read - 1) x.caret.count = .ok s) :
      Settles lx entry x kept first
        (drop { lx with caret := x.caret, marks := x.marks } s kept lx.caret c after)
  | stuck {n : Nat} {e : LexError} (hput : putBack x.stream n x.caret.count = .error e) :
      Settles lx entry x kept first
        (.finish (.error e) { lx with caret := x.caret, marks := x.marks } x.stream)

/-- Settling makes one of the described outcomes. -/
theorem settles_settle (lx : Lexer σ) (entry : LexEntry) (x : Scan σ) (kept : String)
    (first : Pos) : lx.Settles entry x kept first (lx.settle entry x kept first) := by
  unfold settle
  cases hbest : x.best with
  | some m =>
    cases hput : putBack x.stream (x.read - m.length) x.caret.count with
    | ok s =>
      simp only [hput]
      exact .matched hbest hput
    | error e =>
      simp only [hput]
      exact .stuck hput
  | none =>
    cases herror : x.error with
    | some e => exact .failed hbest herror
    | none =>
      cases hfirst : x.first with
      | none => exact .ended hbest herror hfirst
      | some f =>
        cases hput : putBack x.stream (x.read - 1) x.caret.count with
        | ok s => exact .dropped hbest herror hfirst hput
        | error e => exact .stuck hput

/-- The lexer after one match. -/
def advanced : Advance σ → Lexer σ
  | .finish _ lexer _ => lexer
  | .next lexer _ _ _ => lexer

/-- What comes of a scan changes neither the tables nor the tab stops, and the marks are those of
the scan. -/
theorem exists_advanced_settle (lx : Lexer σ) (entry : LexEntry) (x : Scan σ) (kept : String)
    (first : Pos) : ∃ caret lexState isEos, advanced (lx.settle entry x kept first) =
      { lx with caret, lexState, isEos, marks := x.marks } := by
  have h := settles_settle lx entry x kept first
  generalize lx.settle entry x kept first = a at h
  cases h with
  | matched =>
    unfold take
    simp only
    split <;> exact ⟨_, _, _, rfl⟩
  | failed => exact ⟨_, _, _, rfl⟩
  | ended =>
    unfold finishInput
    simp only
    split <;> exact ⟨_, _, _, rfl⟩
  | dropped => exact ⟨_, _, _, rfl⟩
  | stuck => exact ⟨_, _, _, rfl⟩

end Advance

/-- A lexer stays ready with the marks that a scan leaves. -/
theorem ready_scan (hfits : ∀ {r q : Nat}, q ∈ tables.row r → q < tables.transitions.size)
    (h : lx.Ready tables) (stream : σ) (entry : LexEntry) (caret : Caret) :
    Ready tables { lx with caret, marks := (lx.scan stream entry).marks } := by
  refine ⟨h.tables_eq, ?_⟩
  obtain ⟨rfl, hsound⟩ := h
  exact Tables.sound_marks_scanFrom hfits _ _ hsound

/-- A turn leaves the lexer ready. -/
theorem ready_advance (hfits : ∀ {r q : Nat}, q ∈ tables.row r → q < tables.transitions.size)
    (h : lx.Ready tables) (stream : σ) (kept : String) (first : Pos) :
    (advanced (lx.advance stream kept first)).Ready tables := by
  cases hentry : lx.tables.lexStates[lx.lexState]? with
  | none =>
    rw [advance_of_missing hentry]
    exact h
  | some entry =>
    rw [advance_of_entry hentry]
    obtain ⟨caret, lexState, isEos, heq⟩ := exists_advanced_settle lx entry
      (lx.scan (CharStream.beginToken stream) entry) kept first
    have hscan := ready_scan hfits h (CharStream.beginToken stream) entry caret
    rw [heq]
    exact ⟨hscan.tables_eq, hscan.sound⟩

/-- A call leaves the lexer ready. -/
theorem ready_run (hfits : ∀ {r q : Nat}, q ∈ tables.row r → q < tables.transitions.size)
    (h : lx.Ready tables) (stream : σ) (kept : String) (first : Pos) :
    (lx.run stream kept first).2.1.Ready tables := by
  fun_induction run lx stream kept first with
  | case1 lx stream kept first result lx' stream' hadvance =>
    have := ready_advance hfits h stream kept first
    rw [hadvance] at this
    exact this
  | case2 lx stream kept first lx' stream' kept' first' hadvance _ ih =>
    have := ready_advance hfits h stream kept first
    rw [hadvance] at this
    exact ih this

/-! ### Calls -/

/-- A call without a stream is an error. -/
theorem nextToken_of_detached (lx : Lexer σ) (hinput : lx.input = none) :
    lx.nextToken = (.error .noStream, { lx with lastError := some .noStream }) := by
  unfold nextToken
  rw [hinput]

/-- A call behind the end of the input gives nothing. -/
theorem nextToken_of_ended (lx : Lexer σ) {stream : σ} (hinput : lx.input = some stream)
    (heos : lx.isEos = true) : lx.nextToken = (.ok none, { lx with lastError := none }) := by
  unfold nextToken
  rw [hinput]
  simp only [if_pos heos]

/-- A call of a lexer that reads is a run of matches. -/
theorem nextToken_of_attached (lx : Lexer σ) {stream : σ} (hinput : lx.input = some stream)
    (heos : ¬lx.isEos = true) {result : Except LexError (Option Token)} {lx' : Lexer σ}
    {stream' : σ}
    (hrun : run { lx with lastError := none } stream "" lx.caret.pos = (result, lx', stream')) :
    lx.nextToken = (result, { lx' with
      input := some stream', lastError := result.casesOn some fun _ => none }) := by
  unfold nextToken
  rw [hinput] at hrun ⊢
  simp only [if_neg heos, hrun]
  cases result <;> rfl

/-- The calls of a user leave a lexer ready. -/
theorem Built.ready (hfits : ∀ {r q : Nat}, q ∈ tables.row r → q < tables.transitions.size)
    (h : lx.Built tables) : lx.Ready tables := by
  induction h with
  | ofTables => exact ⟨rfl, Marks.sound_ofSize _⟩
  | attach _ input ih => exact ⟨ih.tables_eq, ih.sound⟩
  | detach _ ih => exact ⟨ih.tables_eq, ih.sound⟩
  | setLexState _ lexState ih => exact ⟨ih.tables_eq, ih.sound⟩
  | setTabWidth _ width ih => exact ⟨ih.tables_eq, ih.sound⟩
  | skipChar _ c ih => exact ⟨ih.tables_eq, ih.sound⟩
  | @nextToken lx _ ih =>
    cases hinput : lx.input with
    | none =>
      rw [nextToken_of_detached lx hinput]
      exact ⟨ih.tables_eq, ih.sound⟩
    | some stream =>
      by_cases heos : lx.isEos = true
      · rw [nextToken_of_ended lx hinput heos]
        exact ⟨ih.tables_eq, ih.sound⟩
      · have hrun := @ready_run σ _ tables { lx with lastError := none } hfits
          ⟨ih.tables_eq, ih.sound⟩ stream "" lx.caret.pos
        rw [nextToken_of_attached lx hinput heos rfl]
        exact ⟨hrun.tables_eq, hrun.sound⟩

/-! ### The scan of a lexer -/

variable {lexicon : Lexicon} {options : Options} {k : Compilation}

/-- What the scan has read after `n` characters, and the states that are active then. -/
def scanAfter (lx : Lexer σ) (stream : σ) (entry : LexEntry) (n : Nat) : Scan σ × Array Nat :=
  Scan.after lx.tables lx.tabWidth n { stream, caret := lx.caret, marks := lx.marks }
    ((entry.startRow.map lx.tables.row).getD #[])

omit [CharStream σ] in
/-- What a scan relies on: the lexical state has an entry, which starts like the engine. -/
theorem exists_entry (hk : compile lexicon options = .ok k) (hready : lx.Ready k.tables)
    (hi : i < lexicon.states.length) :
    ∃ info entry, (Automaton.ofLexicon lexicon options).1.lexStates[i]? = some info ∧
      k.tables.lexStates[i]? = some entry ∧ entry.eofRule = info.eofRule ∧
      k.tables.Follows (Automaton.ofLexicon lexicon options).1
        ((entry.startRow.map lx.tables.row).getD #[])
        ((Automaton.ofLexicon lexicon options).1.closure info.start) := by
  obtain ⟨himplements, hserves⟩ := serves_of_compile hk
  rw [← himplements.stateCount] at hi
  have hinfo := Array.getElem?_eq_getElem hi
  obtain ⟨entry, hentry, heof, hfollows⟩ := hserves.follows_start hinfo
  rw [hready.tables_eq]
  exact ⟨_, entry, hinfo, hentry, heof, hfollows⟩

/-- The scan of a lexer chooses what the lexical state selects from the text of the stream. -/
theorem chosen_scan (hk : compile lexicon options = .ok k) (hready : lx.Ready k.tables)
    (hi : i < lexicon.states.length) (stream : σ) :
    ∃ entry, k.tables.lexStates[i]? = some entry ∧
      lexicon.Chosen i (text stream) (lx.scan stream entry).choice := by
  obtain ⟨himplements, hserves⟩ := serves_of_compile hk
  obtain ⟨info, entry, hinfo, hentry, -, hfollows⟩ := exists_entry hk hready hi
  refine ⟨entry, hentry, ?_⟩
  have htracks := Automaton.tracks_startSet hinfo
  rw [Engine.startSet_ofAutomaton hinfo] at htracks
  have hsound := hready.sound
  unfold scan
  rw [hready.tables_eq] at hfollows ⊢
  exact hserves.chosen_scanFrom himplements hinfo
    { stream, caret := lx.caret, marks := lx.marks } _ rfl hsound hfollows htracks
    Lexicon.chosen_nil

/-- The scan of a lexer selects the longest non-empty prefix of the text that is in the language
of a rule of the lexical state, with the first such rule, and nothing if there is no such
prefix. -/
theorem scan_selects (hk : compile lexicon options = .ok k) (hlx : lx.Built k.tables)
    (hi : i < lexicon.states.length) (stream : σ) :
    ∃ entry, k.tables.lexStates[i]? = some entry ∧
      (∀ id n, (∃ m, (lx.scan stream entry).best = some m ∧ m.rule = id ∧ m.length = n) ↔
        lexicon.Selects i (text stream) id n) ∧
      ((lx.scan stream entry).best = none ↔ ∀ id n, ¬lexicon.Selects i (text stream) id n) := by
  obtain ⟨-, hserves⟩ := serves_of_compile hk
  obtain ⟨entry, hentry, hchosen⟩ := chosen_scan hk (hlx.ready hserves.fits) hi stream
  refine ⟨entry, hentry, fun id n => ?_, ?_⟩
  · rw [← hchosen id n]
    unfold Scan.choice
    rw [Option.map_eq_some_iff]
    simp only [Prod.mk.injEq]
  · rw [← hchosen.eq_none_iff]
    exact Option.map_eq_none_iff.symm

/-- A lexer of the sample lexicon selects the whole word. -/
theorem scan_selects_words : ∃ k entry m, compile Lexicon.words Options.quiet = .ok k ∧
    k.tables.lexStates[0]? = some entry ∧
    ((ofTables k.tables).scan ({ source := .ofString "abb" } : Reader) entry).best = some m ∧
    m.rule = 0 ∧ m.length = 3 := by
  obtain ⟨k, hk⟩ := exists_compile rfl hasNoErrors_words rfl
  obtain ⟨entry, hentry, hselects, -⟩ := scan_selects hk .ofTables
    (by decide : 0 < Lexicon.words.states.length) ({ source := .ofString "abb" } : Reader)
  rw [Reader.faithful.text_eq (Reader.at_ofString _)] at hselects
  obtain ⟨m, hm, hrule, hlength⟩ := (hselects 0 3).2 Lexicon.selects_words
  exact ⟨k, entry, m, hk, hentry, hm, hrule, hlength⟩

/-- The best match of a scan is the one that it had after the last character that it read. -/
theorem best_scan (lx : Lexer σ) (stream : σ) (entry : LexEntry) :
    (lx.scan stream entry).best =
      (lx.scanAfter stream entry (lx.scan stream entry).read).1.best := by
  obtain ⟨n, hread, hbest⟩ := @exists_after_eq_scanFrom σ _ lx.tables lx.tabWidth
    { stream, caret := lx.caret, marks := lx.marks } ((entry.startRow.map lx.tables.row).getD #[])
  have hread : (lx.scan stream entry).read = n := by
    rw [← Nat.zero_add n]
    exact hread
  rw [hread]
  exact hbest

/-- After each character the states of a scan are those of the engine. -/
theorem mem_scanAfter (hk : compile lexicon options = .ok k) (hready : lx.Ready k.tables)
    (hi : i < lexicon.states.length) (stream : σ) {entry : LexEntry}
    (hentry : k.tables.lexStates[i]? = some entry) (hpos : 1 ≤ n)
    (hn : n ≤ (lx.scan stream entry).read) :
    (lx.scanAfter stream entry n).2.toList.Nodup ∧
      ∀ q, q ∈ (lx.scanAfter stream entry n).2 ↔
        q ∈ ((text stream).take n).foldl
          (Engine.ofAutomaton (Automaton.ofLexicon lexicon options).1).step
          ((Engine.ofAutomaton (Automaton.ofLexicon lexicon options).1).startSet i) := by
  obtain ⟨himplements, hserves⟩ := serves_of_compile hk
  obtain ⟨info, entry', hinfo, hentry', -, hfollows⟩ := exists_entry hk hready hi
  rw [hentry] at hentry'
  cases hentry'
  obtain ⟨n, rfl⟩ : ∃ n', n = n' + 1 := ⟨n - 1, by omega⟩
  -- A scan reads no more than there is.
  have hle : n + 1 ≤ (text stream).length := by
    have := @read_scanFrom_le σ _ lx.tables lx.tabWidth
      { stream, caret := lx.caret, marks := lx.marks }
      ((entry.startRow.map lx.tables.row).getD #[])
    rw [← Nat.zero_add (text stream).length]
    exact Nat.le_trans hn this
  have hin : ∀ q ∈ (Automaton.ofLexicon lexicon options).1.closure info.start,
      (Automaton.ofLexicon lexicon options).1.InLexState i q :=
    fun q hq => himplements.inLexState_of_mem_closure (himplements.start hinfo).1 hq
  have hsound := hready.sound
  unfold scanAfter
  rw [hready.tables_eq] at hfollows ⊢
  rw [Engine.startSet_ofAutomaton hinfo]
  exact hserves.after himplements { stream, caret := lx.caret, marks := lx.marks } _ hsound
    hfollows hin hle

/-- The scan of a lexer has a match exactly when the engine has one, with the same rule, kind and
length. -/
theorem exists_longestMatch (hk : compile lexicon options = .ok k) (hready : lx.Ready k.tables)
    (hi : i < lexicon.states.length) (stream : σ) {entry : LexEntry}
    (hentry : k.tables.lexStates[i]? = some entry) :
    ∃ r, (Engine.ofAutomaton (Automaton.ofLexicon lexicon options).1).longestMatch i
        (String.ofList (text stream)) = .ok r ∧
      (lx.scan stream entry).choice = Engine.choiceOf r ∧
      ∀ m ∈ r, ∃ terminal, k.tables.terminals[m.1.rule]? = some terminal ∧
        m.1.kind = terminal.kind := by
  obtain ⟨himplements, hserves⟩ := serves_of_compile hk
  obtain ⟨info, -, hinfo, -⟩ := exists_entry hk hready hi
  obtain ⟨entry', hentry', hchosen⟩ := chosen_scan hk hready hi stream
  rw [hentry] at hentry'
  cases hentry'
  obtain ⟨r, hr, hchosen', hfaithful⟩ :=
    Engine.chosen_longestMatch himplements hinfo (String.ofList (text stream))
  rw [String.toList_ofList] at hchosen'
  -- Both choose what the lexical state selects, so they choose the same.
  refine ⟨r, hr, hchosen.eq hchosen', fun m hm => ?_⟩
  obtain ⟨rule, hnumbered, hacc⟩ := hfaithful m hm
  obtain ⟨rinfo, hrinfo, -, -, hkind, -⟩ := himplements.rule hnumbered
  refine ⟨⟨rinfo.kind, rinfo.category, rinfo.nextState⟩, ?_, ?_⟩
  · rw [hserves.terminals, Array.getElem?_map, hrinfo]
    rfl
  · exact (congrArg Accept.kind hacc).trans hkind.symm

/-- The scan of a lexer agrees with the engine: it has a match exactly when the engine has one,
with the same rule, kind and length, and after each character it has the states of the engine. -/
theorem scan_agrees (hk : compile lexicon options = .ok k) (hlx : lx.Built k.tables)
    (hi : i < lexicon.states.length) (stream : σ) :
    ∃ entry, k.tables.lexStates[i]? = some entry ∧
      (∀ id n, (∃ m, (lx.scan stream entry).best = some m ∧ m.rule = id ∧ m.length = n) ↔
        ∃ acc terminal, (Engine.ofAutomaton (Automaton.ofLexicon lexicon options).1).longestMatch i
            (String.ofList (text stream)) = .ok (some (acc, n)) ∧ acc.rule = id ∧
          k.tables.terminals[id]? = some terminal ∧ acc.kind = terminal.kind) ∧
      ((lx.scan stream entry).best = none ↔
        (Engine.ofAutomaton (Automaton.ofLexicon lexicon options).1).longestMatch i
          (String.ofList (text stream)) = .ok none) ∧
      (lx.scan stream entry).best =
        (lx.scanAfter stream entry (lx.scan stream entry).read).1.best ∧
      ∀ n, 1 ≤ n → n ≤ (lx.scan stream entry).read →
        (lx.scanAfter stream entry n).2.toList.Nodup ∧
        ∀ q, q ∈ (lx.scanAfter stream entry n).2 ↔
          q ∈ ((text stream).take n).foldl
            (Engine.ofAutomaton (Automaton.ofLexicon lexicon options).1).step
            ((Engine.ofAutomaton (Automaton.ofLexicon lexicon options).1).startSet i) := by
  have hready := hlx.ready (serves_of_compile hk).2.fits
  obtain ⟨-, entry, -, hentry, -⟩ := exists_entry hk hready hi
  -- What the engine finds has the rule and the length of what the scan finds.
  obtain ⟨r, hr, hsame, hkind⟩ := exists_longestMatch hk hready hi stream hentry
  refine ⟨entry, hentry, fun id n => ?_, ?_, best_scan lx stream entry,
    fun n hpos hn => mem_scanAfter hk hready hi stream hentry hpos hn⟩
  · rw [hr]
    constructor
    · rintro ⟨m, hm, rfl, rfl⟩
      have hchoice : Engine.choiceOf r = some (m.rule, m.length) := by
        rw [← hsame]
        unfold Scan.choice
        rw [hm]
        rfl
      obtain ⟨⟨acc, n⟩, rfl, heq⟩ := Option.map_eq_some_iff.1 hchoice
      obtain ⟨hrule, hlength⟩ := Prod.mk.inj heq
      obtain ⟨terminal, hterminal, hacc⟩ := hkind (acc, n) rfl
      rw [show acc.rule = m.rule from hrule] at hterminal
      exact ⟨acc, terminal, by rw [← show n = m.length from hlength], hrule, hterminal, hacc⟩
    · rintro ⟨acc, terminal, hacc, rfl, -⟩
      cases hacc
      obtain ⟨m, hm, heq⟩ := Option.map_eq_some_iff.1 hsame
      obtain ⟨hrule, hlength⟩ := Prod.mk.inj heq
      exact ⟨m, hm, hrule, hlength⟩
  · rw [hr, Except.ok.injEq, ← Option.map_eq_none_iff (f := fun m : Match => (m.rule, m.length)),
      ← Option.map_eq_none_iff (f := fun m : Accept × Nat => (m.1.rule, m.2))]
    show (lx.scan stream entry).choice = none ↔ Engine.choiceOf r = none
    rw [hsame]

/-- On a word, a lexer of the sample lexicon and the engine have the same match. -/
theorem scan_agrees_words : ∃ k entry m acc, compile Lexicon.words Options.quiet = .ok k ∧
    k.tables.lexStates[0]? = some entry ∧
    ((ofTables k.tables).scan ({ source := .ofString "abb" } : Reader) entry).best = some m ∧
    (Engine.ofAutomaton (Automaton.ofLexicon Lexicon.words Options.quiet).1).longestMatch 0 "abb" =
      .ok (some (acc, m.length)) ∧ acc.rule = m.rule := by
  obtain ⟨k, hk⟩ := exists_compile rfl hasNoErrors_words rfl
  have hready := (@Built.ofTables Reader _ k.tables).ready (serves_of_compile hk).2.fits
  have hi : 0 < Lexicon.words.states.length := by decide
  have htext := Reader.faithful.text_eq (Reader.at_ofString "abb")
  obtain ⟨entry, hentry, hsame, -⟩ :=
    scan_agrees hk .ofTables hi ({ source := .ofString "abb" } : Reader)
  obtain ⟨entry', hentry', hchosen⟩ :=
    chosen_scan hk hready hi ({ source := .ofString "abb" } : Reader)
  rw [hentry] at hentry'
  cases hentry'
  rw [htext] at hsame hchosen
  obtain ⟨m, hm, -⟩ := Option.map_eq_some_iff.1 ((hchosen 0 3).2 Lexicon.selects_words)
  obtain ⟨acc, -, hacc, hrule, -⟩ := (hsame m.rule m.length).1 ⟨m, hm, rfl, rfl⟩
  exact ⟨k, entry, m, acc, hk, hentry, hm, hacc, hrule⟩

end Lexer

end Lexwright

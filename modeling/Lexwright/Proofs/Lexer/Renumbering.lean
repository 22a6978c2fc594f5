import Mathlib.Order.MinMax
import Lexwright.Proofs.Closed
import Lexwright.Proofs.Lexer.Run

/-!
# `Lexwright.Proofs.Lexer.Renumbering`: a lexer does not depend on the numbers of rules

The rules of a match are compared by number, and the lowest is taken. Then the number leads to what
the rule asks for. So where rules get other numbers in the same order, and the new numbers lead to
what the old ones led to, a lexer does the same. Only the rules matter that are accepted by a row or
stand for the end of the input.

* `Tables.Offers`: the rules that rows accept. No scan finds another rule.
* `Tables.renumber`, `Tables.Suits`: tables under other numbers, and when these fit.
* `scanFrom_renumber`: a scan finds the same match, and its rule under the new number.
* `Lexer.advance_renumber`, `Lexer.run_renumber`, `Lexer.nextToken_renumber`: one match, a run of
  matches and a call.
* `Lexer.respond_renumber`: any calls return the same.
-/

set_option autoImplicit false

namespace Lexwright

variable {σ : Type} [CharStream σ] {t : Tables} {tabWidth : Nat} {f : Nat → Nat}
  {terminals : Array Terminal}

/-! ### The rules that a scan finds -/

namespace Tables

/-- The rule is accepted by a row. -/
def Offers (t : Tables) (id : Nat) : Prop := ∃ r < t.rows.size, t.rowRule r = some id

/-- A move leads to a row that exists. -/
theorem lt_of_target? (h : t.Closed) {q next : Nat} {c : Char}
    (htarget : t.target? q c = some next) : next < t.rows.size := by
  unfold target? at htarget
  split at htarget
  · rename_i move hmove
    split at htarget
    · cases htarget
      exact (h.transition move (Array.mem_of_getElem? (Option.join_eq_some_iff.1 hmove))).2
    · cases htarget
  · cases htarget

/-- One more character finds no rule but one of the rows that become active. -/
theorem offers_stepState (h : t.Closed) (c : Char) {found : (Marks × Array Nat) × Option Nat}
    (hfound : ∀ id, found.2 = some id → t.Offers id) (q : Nat) :
    ∀ id, (t.stepState c found q).2 = some id → t.Offers id := by
  intro id hid
  unfold stepState at hid
  split at hid
  · rename_i row htarget
    have hrow : ∀ id, t.rowRule row = some id → t.Offers id := fun id hid =>
      ⟨row, lt_of_target? h htarget, hid⟩
    -- The lower of two rules is one of them.
    cases hf : found.2 with
    | none =>
      simp only [hf, lowerRule] at hid
      exact hrow id hid
    | some a =>
      cases hr : t.rowRule row with
      | none =>
        simp only [hf, hr, lowerRule] at hid
        exact hfound id (hf.trans hid)
      | some b =>
        simp only [hf, hr, lowerRule, Option.some.injEq] at hid
        rcases Nat.le_total a b with hle | hle
        · exact hfound id (by rw [hf, ← hid, Nat.min_eq_left hle])
        · exact hrow id (by rw [hr, ← hid, Nat.min_eq_right hle])
  · exact hfound id hid

/-- A step accepts only rules that the tables offer. -/
theorem offers_step (h : t.Closed) (marks : Marks) (active : Array Nat) (c : Char) :
    ∀ id, (t.step marks active c).2 = some id → t.Offers id := by
  unfold step
  rw [← Array.foldl_toList]
  have hnone : ∀ id, (((marks.renew, #[]), none) : (Marks × Array Nat) × Option Nat).2 = some id →
      t.Offers id := fun id h => nomatch h
  generalize ((marks.renew, #[]), none) = found at hnone ⊢
  induction active.toList generalizing found with
  | nil => exact hnone
  | cons q rest ih => exact ih _ (offers_stepState h c hnone q)

/-- The rule of a match is one that a row accepts. -/
theorem offers_scanFrom (h : t.Closed) (x : Scan σ) (active : Array Nat)
    (hx : ∀ m ∈ x.best, t.Offers m.rule) :
    ∀ m ∈ (scanFrom t tabWidth x active).best, t.Offers m.rule := by
  have hnext : ∀ {x : Scan σ} {active : Array Nat} {stream : σ} {c : Char},
      (∀ m ∈ x.best, t.Offers m.rule) →
        ∀ m ∈ (x.next t tabWidth active stream c).1.best, t.Offers m.rule := by
    intro x active stream c hx m hm
    have hstep := offers_step h x.marks active c
    rcases hs : t.step x.marks active c with ⟨found, rule⟩
    rw [hs] at hstep
    unfold Scan.next at hm
    rw [hs] at hm
    cases rule with
    | none => exact hx m hm
    | some r =>
      cases hm
      exact hstep r rfl
  fun_induction scanFrom t tabWidth x active with
  | case1 => exact hx
  | case2 => exact hx
  | case3 => exact hnext hx
  | case4 _ _ _ _ _ _ _ _ ih => exact ih (hnext hx)

end Tables

/-! ### Other numbers -/

/-- The entry of a lexical state with another number for its rule. -/
def LexEntry.renumber (f : Nat → Nat) (e : LexEntry) : LexEntry :=
  { e with eofRule := e.eofRule.map f }

/-- The match of a rule under another number. -/
def Match.renumber (f : Nat → Nat) (m : Match) : Match := { m with rule := f m.rule }

/-- The scan with another number for the rule of its match. -/
def Scan.renumber {σ : Type} (f : Nat → Nat) (x : Scan σ) : Scan σ :=
  { x with best := x.best.map (Match.renumber f) }

namespace Tables

/-- The tables with other numbers for the rules, which lead to the given entries. -/
def renumber (t : Tables) (f : Nat → Nat) (terminals : Array Terminal) : Tables :=
  { t with
    terminals
    lexStates := t.lexStates.map (LexEntry.renumber f)
    rowRules := t.rowRules.map (Option.map f) }

/-- The new numbers are in the order of the old ones, and lead to what the old ones led to, for
every rule that a row or the end of the input asks for. -/
structure Suits (t : Tables) (f : Nat → Nat) (terminals : Array Terminal) : Prop where
  monotone : Monotone f
  offers : ∀ id, t.Offers id → terminals[f id]? = t.terminals[id]?
  eofRule : ∀ (i : Nat) (entry : LexEntry) (id : Nat), t.lexStates[i]? = some entry →
    entry.eofRule = some id → terminals[f id]? = t.terminals[id]?

/-- The rule of a row is renumbered with the tables. -/
theorem rowRule_renumber (r : Nat) :
    (t.renumber f terminals).rowRule r = (t.rowRule r).map f := by
  unfold rowRule renumber
  rw [Array.getElem?_map, Option.join_map_eq_map_join]

/-- Renumbering in order keeps which of two rules is lower. -/
theorem lowerRule_map (hf : Monotone f) (a b : Option Nat) :
    lowerRule (a.map f) (b.map f) = (lowerRule a b).map f := by
  cases a <;> cases b <;> simp [lowerRule, hf.map_min]

/-- One more character finds the same rule, under its new number. -/
theorem step_renumber (hf : Monotone f) (marks : Marks) (active : Array Nat) (c : Char) :
    (t.renumber f terminals).step marks active c =
      ((t.step marks active c).1, (t.step marks active c).2.map f) := by
  -- Renumbering touches the accepted rule only, and commutes with one state after another.
  have hstep : ∀ (found : (Marks × Array Nat) × Option Nat) (q : Nat),
      (t.renumber f terminals).stepState c (found.1, found.2.map f) q =
        ((t.stepState c found q).1, (t.stepState c found q).2.map f) := by
    intro found q
    unfold stepState
    rw [show (t.renumber f terminals).target? q c = t.target? q c from rfl]
    cases t.target? q c with
    | none => rfl
    | some row =>
      simp only [rowRule_renumber, lowerRule_map hf]
      rfl
  unfold step
  rw [← Array.foldl_toList, ← Array.foldl_toList]
  have hrun : ∀ (qs : List Nat) (found : (Marks × Array Nat) × Option Nat),
      qs.foldl ((t.renumber f terminals).stepState c) (found.1, found.2.map f) =
        ((qs.foldl (t.stepState c) found).1, (qs.foldl (t.stepState c) found).2.map f) := by
    intro qs
    induction qs with
    | nil => exact fun _ => rfl
    | cons q qs ih =>
      intro found
      rw [List.foldl_cons, List.foldl_cons, hstep, ih]
  exact hrun active.toList ((marks.renew, #[]), none)

end Tables

omit [CharStream σ] in
/-- One character is scanned alike before and after renumbering. -/
theorem Scan.next_renumber (hf : Monotone f) (x : Scan σ) (active : Array Nat) (stream : σ)
    (c : Char) : (x.renumber f).next (t.renumber f terminals) tabWidth active stream c =
      ((x.next t tabWidth active stream c).1.renumber f,
        (x.next t tabWidth active stream c).2) := by
  unfold next
  rw [Tables.step_renumber hf, show (x.renumber f).marks = x.marks from rfl]
  rcases t.step x.marks active c with ⟨⟨marks, active'⟩, rule⟩
  cases rule <;> rfl

/-- A scan finds the same match, and its rule under the new number. -/
theorem scanFrom_renumber (hf : Monotone f) (x : Scan σ) (active : Array Nat) :
    scanFrom (t.renumber f terminals) tabWidth (x.renumber f) active =
      (scanFrom t tabWidth x active).renumber f := by
  fun_induction scanFrom t tabWidth x active with
  | case1 x active stream h => exact scanFrom_of_end (x := x.renumber f) h
  | case2 x active e stream h => exact scanFrom_of_error (x := x.renumber f) h
  | case3 x active c stream h _ after hempty =>
    rw [scanFrom_of_read (x := x.renumber f) h, Scan.next_renumber hf]
    exact if_pos hempty
  | case4 x active c stream h _ after hempty ih =>
    rw [scanFrom_of_read (x := x.renumber f) h, Scan.next_renumber hf]
    exact (if_neg hempty).trans ih

/-! ### Lexers -/

/-- What became of a match, with other numbers from then on. -/
def Advance.renumber {σ : Type} (f : Nat → Nat) (terminals : Array Terminal) :
    Advance σ → Advance σ
  | .finish result lexer stream =>
    .finish result { lexer with tables := lexer.tables.renumber f terminals } stream
  | .next lexer stream kept first =>
    .next { lexer with tables := lexer.tables.renumber f terminals } stream kept first

namespace Lexer

/-- The lexer with other numbers for its rules. -/
def renumber {σ : Type} (f : Nat → Nat) (terminals : Array Terminal) (lx : Lexer σ) : Lexer σ :=
  { lx with tables := lx.tables.renumber f terminals }

variable {lx : Lexer σ} {stream : σ}

/-- A scan finds the same match before and after renumbering. -/
theorem scan_renumber (hf : Monotone f) (entry : LexEntry) :
    (lx.renumber f terminals).scan stream (entry.renumber f) =
      (lx.scan stream entry).renumber f :=
  scanFrom_renumber hf { stream, caret := lx.caret, marks := lx.marks } _

/-- Taking a match gives the same outcome where its terminal is the same. -/
theorem take_renumber (lx : Lexer σ) (stream : σ) {m : Match}
    (h : terminals[f m.rule]? = lx.tables.terminals[m.rule]?) (kept : String) (first : Pos) :
    (lx.renumber f terminals).take stream kept first (m.renumber f) =
      (lx.take stream kept first m).renumber f terminals := by
  have hget : terminals.getD (f m.rule) default = lx.tables.terminals.getD m.rule default := by
    rw [Array.getD_eq_getD_getElem?, Array.getD_eq_getD_getElem?, h]
  unfold take
  simp only
  rw [show (lx.renumber f terminals).tables.terminals.getD (m.renumber f).rule default = _
    from hget]
  cases (lx.tables.terminals.getD m.rule default).category <;> rfl

omit [CharStream σ] in
/-- The end of the input gives the same outcome where the terminal of its rule is the same. -/
theorem finishInput_renumber (lx : Lexer σ) (stream : σ) {entry : LexEntry}
    (h : ∀ id, entry.eofRule = some id → terminals[f id]? = lx.tables.terminals[id]?)
    (kept : String) :
    (lx.renumber f terminals).finishInput stream kept (entry.renumber f) =
      (lx.finishInput stream kept entry).renumber f terminals := by
  unfold finishInput LexEntry.renumber
  simp only
  split
  · cases heof : entry.eofRule with
    | none => rfl
    | some id =>
      have hget : (lx.renumber f terminals).tables.terminals[f id]? = lx.tables.terminals[id]? :=
        h id heof
      simp only [Option.map_some, Option.bind_eq_bind, Option.bind_some, hget]
      rfl
  · rfl

/-- What comes of a scan asks the entries of its rule only. -/
theorem settle_renumber {entry : LexEntry} {x : Scan σ}
    (hentry : lx.tables.lexStates[lx.lexState]? = some entry)
    (hbest : ∀ m ∈ x.best, lx.tables.Offers m.rule) (h : lx.tables.Suits f terminals)
    (kept : String) (first : Pos) :
    (lx.renumber f terminals).settle (entry.renumber f) (x.renumber f) kept first =
      (lx.settle entry x kept first).renumber f terminals := by
  unfold settle
  -- Only the match names a rule. What is put back and what is dropped does not depend on it.
  rw [show (x.renumber f).best = x.best.map (Match.renumber f) from rfl]
  cases hx : x.best with
  | some m =>
    simp only [Option.map_some]
    rw [show putBack (x.renumber f).stream ((x.renumber f).read - (m.renumber f).length)
      (x.renumber f).caret.count = putBack x.stream (x.read - m.length) x.caret.count from rfl]
    cases putBack x.stream (x.read - m.length) x.caret.count with
    | error e => rfl
    | ok s =>
      exact take_renumber { lx with caret := x.caret, marks := x.marks } s
        (h.offers _ (hbest m hx)) kept first
  | none =>
    simp only [Option.map_none]
    rw [show (x.renumber f).error = x.error from rfl,
      show (x.renumber f).first = x.first from rfl]
    cases x.error with
    | some e => rfl
    | none =>
      cases x.first with
      | none =>
        exact finishInput_renumber { lx with caret := x.caret, marks := x.marks } x.stream
          (h.eofRule _ _ · hentry) kept
      | some c =>
        simp only
        rw [show putBack (x.renumber f).stream ((x.renumber f).read - 1)
          (x.renumber f).caret.count = putBack x.stream (x.read - 1) x.caret.count from rfl]
        cases putBack x.stream (x.read - 1) x.caret.count with
        | error e => rfl
        | ok s => rfl

/-- One match asks the entries of its rule only. -/
theorem advance_renumber (stream : σ) (hclosed : lx.tables.Closed)
    (h : lx.tables.Suits f terminals) (kept : String) (first : Pos) :
    (lx.renumber f terminals).advance stream kept first =
      (lx.advance stream kept first).renumber f terminals := by
  have hentry' : (lx.renumber f terminals).tables.lexStates[(lx.renumber f terminals).lexState]? =
      (lx.tables.lexStates[lx.lexState]?).map (LexEntry.renumber f) := Array.getElem?_map
  cases hentry : lx.tables.lexStates[lx.lexState]? with
  | none =>
    rw [hentry, Option.map_none] at hentry'
    rw [advance_of_missing hentry, advance_of_missing hentry']
    rfl
  | some entry =>
    rw [hentry, Option.map_some] at hentry'
    have hbest : ∀ m ∈ (lx.scan (CharStream.beginToken stream) entry).best,
        lx.tables.Offers m.rule := Tables.offers_scanFrom hclosed _ _ fun m hm => nomatch hm
    rw [advance_of_entry hentry, advance_of_entry hentry', scan_renumber h.monotone]
    exact settle_renumber hentry hbest h kept first

/-- A run of matches goes on with the numbers that it was begun with. -/
theorem run_renumber (hclosed : t.Closed) (hsuits : t.Suits f terminals)
    (hfits : ∀ {r q : Nat}, q ∈ t.row r → q < t.transitions.size) {lx : Lexer σ}
    (hready : lx.Ready t) (stream : σ) (kept : String) (first : Pos) :
    (lx.renumber f terminals).run stream kept first =
      ((lx.run stream kept first).1, (lx.run stream kept first).2.1.renumber f terminals,
        (lx.run stream kept first).2.2) := by
  fun_induction run lx stream kept first with
  | case1 lx stream kept first result lx' stream' hadvance =>
    rw [← hready.tables_eq] at hclosed hsuits
    have h := advance_renumber stream hclosed hsuits kept first
    rw [hadvance] at h
    exact run_of_finish h
  | case2 lx stream kept first lx' stream' kept' first' hadvance _ ih =>
    have hafter := ready_advance hfits hready stream kept first
    rw [hadvance] at hafter
    rw [← hready.tables_eq] at hclosed hsuits
    have h := advance_renumber stream hclosed hsuits kept first
    rw [hadvance] at h
    rw [run_of_next h]
    exact ih hafter

/-- A call returns the same, and goes on with the numbers that the lexer had before. -/
theorem nextToken_renumber (hclosed : t.Closed) (hsuits : t.Suits f terminals)
    (hfits : ∀ {r q : Nat}, q ∈ t.row r → q < t.transitions.size) (hlx : lx.Built t) :
    (lx.renumber f terminals).nextToken =
      (lx.nextToken.1, lx.nextToken.2.renumber f terminals) := by
  have hready := hlx.ready hfits
  cases hinput : lx.input with
  | none =>
    rw [nextToken_of_detached lx hinput]
    exact nextToken_of_detached (lx.renumber f terminals) hinput
  | some stream =>
    by_cases heos : lx.isEos = true
    · rw [nextToken_of_ended lx hinput heos]
      exact nextToken_of_ended (lx.renumber f terminals) hinput heos
    · have hrun := run_renumber hclosed hsuits hfits
        (show Ready t { lx with lastError := none } from ⟨hready.tables_eq, hready.sound⟩)
        stream "" lx.caret.pos
      rw [nextToken_of_attached lx hinput heos rfl]
      exact nextToken_of_attached (lx.renumber f terminals) hinput heos hrun

/-- Any calls return the same, and go on with the numbers that the lexer had before. -/
theorem respond_renumber (hclosed : t.Closed) (hsuits : t.Suits f terminals)
    (hfits : ∀ {r q : Nat}, q ∈ t.row r → q < t.transitions.size) (hlx : lx.Built t)
    (requests : List Request) :
    (lx.renumber f terminals).respond requests = lx.respond requests ∧
      (lx.renumber f terminals).proceed requests =
        (lx.proceed requests).renumber f terminals := by
  induction requests generalizing lx with
  | nil => exact ⟨rfl, rfl⟩
  | cons request requests ih =>
    cases request with
    | next =>
      obtain ⟨hresults, hlast⟩ := ih hlx.nextToken
      have hcall := nextToken_renumber hclosed hsuits hfits hlx
      unfold respond proceed
      rw [hcall]
      exact ⟨congrArg (_ :: ·) hresults, hlast⟩
    | enter i => exact ih (hlx.setLexState i)

end Lexer

end Lexwright

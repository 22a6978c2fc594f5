import Lexwright.Proofs.Lookups
import Lexwright.Proofs.Lexer.Scan

/-!
# `Lexwright.Proofs.Lexer.Checked`: no index of a lexer is out of range

The functions of this module do what a lexer does, but they give nothing as soon as an index is out
of range, a slice does not lie in its array, or a match uses nothing up. They also keep a track of
the positions of a scan and read the places of a match off it, where a match of `scanFrom` carries
these places.

* `Probe`, `probeFrom?`: a scan with its track.
* `Lexer.nextToken?`: a call.
* `Probe.Mirrors`: the scan to which a probe comes, with the places of its match on the track.
* `Lexer.nextToken?_eq`: with closed tables a call that checks everything gives what a call gives.
-/

set_option autoImplicit false

namespace Lexwright

variable {σ : Type} [CharStream σ]

/-! ### Scans with a track -/

/-- What a scan has read so far: the rule and the length of the longest match, the first character,
and the position of each character. -/
structure Probe where
  caret : Caret
  marks : Marks
  accept : Option (Nat × Nat) := none
  first : Option Char := none
  track : Array Pos := #[]
  error : Option StreamError := none

namespace Probe

/-- What a scan has read after one more character, for which a step found marks and a rule. -/
def push (p : Probe) (tabWidth : Nat) (c : Char) (marks : Marks) (rule : Option Nat) : Probe where
  caret := p.caret.advance tabWidth c
  marks
  accept := (rule.map (·, p.track.size + 1)).or p.accept
  first := p.first.or (some c)
  track := p.track.push p.caret.pos
  error := p.error

/-- What a scan has read after one more character, and the states that are active then. -/
def next? (t : Tables) (tabWidth : Nat) (p : Probe) (active : Array Nat) (c : Char) :
    Option (Probe × Array Nat) := do
  let found ← t.step? p.marks active c
  return (p.push tabWidth c found.1.1 found.2, found.1.2)

/-- Where reading stood after `n` characters, from the track. -/
def stoodAt? (p : Probe) (n : Nat) : Option Caret :=
  if n = p.track.size then some p.caret
  else (p.track[n]?).map fun pos => ⟨p.caret.count - (p.track.size - n), pos.line, pos.col⟩

/-- The longest match, with its places from the track. -/
def match? (p : Probe) (rule length : Nat) : Option Match :=
  if 1 ≤ length then do
    let lastPos ← p.track[length - 1]?
    let after ← p.stoodAt? length
    return ⟨rule, length, lastPos, after⟩
  else none

end Probe

/-- Reads a character, and goes on as long as a state is active. -/
def probeFrom? (t : Tables) (tabWidth : Nat) (stream : σ) (p : Probe) (active : Array Nat) :
    Option (σ × Probe) :=
  match h : CharStream.read stream with
  | (.ok none, stream) => some (stream, p)
  | (.error e, stream) => some (stream, { p with error := some e })
  | (.ok (some c), stream) =>
    have := CharStream.remaining_read_lt h
    match p.next? t tabWidth active c with
    | none => none
    | some (p, active) =>
      if active.isEmpty then some (stream, p) else probeFrom? t tabWidth stream p active
termination_by CharStream.remaining stream

/-- Where reading stood after `n` characters. -/
structure Probe.Stood (p : Probe) (n : Nat) (k : Caret) : Prop where
  count : k.count + (p.track.size - n) = p.caret.count
  pos : (p.track.push p.caret.pos)[n]? = some k.pos

/-- The places of the match are on the track, and its rule is one of the tables. -/
structure Probe.Records (t : Tables) (p : Probe) (m : Match) : Prop where
  rule_lt : m.rule < t.terminals.size
  pos : 1 ≤ m.length
  lastPos : p.track[m.length - 1]? = some m.lastPos
  after : p.Stood m.length m.after

/-- The probe is that of the scan, which began at the caret: the places of the longest match and of
the first character are on the track. -/
structure Probe.Mirrors (t : Tables) (start : Caret) (p : Probe) (x : Scan σ) : Prop where
  caret : p.caret = x.caret
  marks : p.marks = x.marks
  size : p.track.size = x.read
  accept : p.accept = x.best.map fun m => (m.rule, m.length)
  first : p.first = x.first.map Prod.fst
  error : p.error = x.error
  stamps : x.marks.stamps.size = t.transitions.size
  start : p.Stood 0 start
  unread : x.first = none → x.read = 0
  best : ∀ m ∈ x.best, p.Records t m
  after : ∀ f ∈ x.first, 1 ≤ x.read ∧ p.Stood 1 f.2

section Probes

variable {t : Tables} {tabWidth n : Nat} {c : Char} {p : Probe} {k start : Caret} {x : Scan σ}
  {active : Array Nat} {stream : σ}

namespace Probe

/-- Only a place that the probe has passed is stood at. -/
theorem Stood.le (h : p.Stood n k) : n ≤ p.track.size := by
  have hlt := (Array.getElem?_eq_some_iff.1 h.pos).1
  rw [Array.size_push] at hlt
  exact Nat.le_of_lt_succ hlt

/-- A place on the track is read off it. -/
theorem Stood.stoodAt? (h : p.Stood n k) : p.stoodAt? n = some k := by
  obtain ⟨hcount, hpos⟩ := h
  unfold Probe.stoodAt?
  by_cases hend : n = p.track.size
  · rw [hend, Array.getElem?_push_size, Option.some.injEq] at hpos
    rw [hend, Nat.sub_self, Nat.add_zero] at hcount
    rw [if_pos hend, Option.some.injEq]
    have hline : p.caret.line = k.line := congrArg Pos.line hpos
    have hcol : p.caret.col = k.col := congrArg Pos.col hpos
    cases k
    simp only at hcount hline hcol
    rw [hcount, ← hline, ← hcol]
  · rw [if_neg hend]
    rw [Array.getElem?_push, if_neg hend] at hpos
    rw [hpos, Option.map_some, ← hcount, Nat.add_sub_cancel]
    rfl

/-- A place stays where it is when one more character is read. -/
theorem Stood.push (h : p.Stood n k) (c : Char) (marks : Marks) (rule : Option Nat) :
    (p.push tabWidth c marks rule).Stood n k := by
  have hle := h.le
  obtain ⟨hcount, hpos⟩ := h
  have hcaret : (p.caret.advance tabWidth c).count = p.caret.count + 1 := Caret.count_advance ..
  refine ⟨?_, ?_⟩
  · show k.count + ((p.track.push p.caret.pos).size - n) = (p.caret.advance tabWidth c).count
    rw [Array.size_push, hcaret]
    omega
  · show ((p.track.push p.caret.pos).push _)[n]? = _
    have hlt : n < (p.track.push p.caret.pos).size := by
      rw [Array.size_push]
      omega
    rw [Array.getElem?_push_lt hlt, ← Array.getElem?_eq_getElem, hpos]

/-- The place behind the last character is where reading stands. -/
theorem stood_size (p : Probe) : p.Stood p.track.size p.caret :=
  ⟨by rw [Nat.sub_self, Nat.add_zero], Array.getElem?_push_size⟩

/-- After a character is pushed the probe stands at the place behind it. -/
theorem stood_push (tabWidth : Nat) (p : Probe) (c : Char) (marks : Marks) (rule : Option Nat) :
    (p.push tabWidth c marks rule).Stood (p.track.size + 1) (p.caret.advance tabWidth c) := by
  have hsize : (p.push tabWidth c marks rule).track.size = p.track.size + 1 := Array.size_push ..
  rw [← hsize]
  exact stood_size _

/-- A match stays where it is when one more character is read. -/
theorem Records.push {m : Match} (h : p.Records t m) (c : Char) (marks : Marks)
    (rule : Option Nat) : (p.push tabWidth c marks rule).Records t m := by
  have hsize : m.length - 1 < p.track.size := (Array.getElem?_eq_some_iff.1 h.lastPos).1
  refine ⟨h.rule_lt, h.pos, ?_, h.after.push ..⟩
  show (p.track.push p.caret.pos)[m.length - 1]? = _
  rw [Array.getElem?_push_lt hsize, ← Array.getElem?_eq_getElem, h.lastPos]

/-- The match that ends with the last character. -/
theorem records_push {id : Nat} (hid : id < t.terminals.size) (p : Probe) (c : Char)
    (marks : Marks) (rule : Option Nat) :
    (p.push tabWidth c marks rule).Records t
      ⟨id, p.track.size + 1, p.caret.pos, p.caret.advance tabWidth c⟩ :=
  ⟨hid, Nat.le_add_left .., Array.getElem?_push_size, stood_push ..⟩

omit [CharStream σ] in
/-- The probe and the scan agree before the first character. -/
theorem mirrors_start {caret : Caret} {marks : Marks}
    (hmarks : marks.stamps.size = t.transitions.size) :
    ({ caret, marks } : Probe).Mirrors t caret ({ stream, caret, marks } : Scan σ) where
  caret := rfl
  marks := rfl
  size := rfl
  accept := rfl
  first := rfl
  error := rfl
  stamps := hmarks
  start := stood_size _
  unread _ := rfl
  best _ hm := nomatch hm
  after _ hf := nomatch hf

omit [CharStream σ] in
/-- The probe mirrors the scan after one more character. -/
theorem Mirrors.push (hp : p.Mirrors t start x) {found : (Marks × Array Nat) × Option Nat}
    (hstep : t.step x.marks active c = found) (hfits : t.Fits found) :
    (p.push tabWidth c found.1.1 found.2).Mirrors t start
      (x.next t tabWidth active stream c).1 := by
  unfold Scan.next
  rw [hstep, ← hp.caret]
  obtain ⟨⟨marks, states⟩, rule⟩ := found
  refine {
    caret := rfl
    marks := rfl
    size := (Array.size_push ..).trans (congrArg (· + 1) hp.size)
    accept := ?accept
    first := ?first
    error := hp.error
    stamps := hfits.stamps
    start := hp.start.push ..
    unread := ?unread
    best := ?best
    after := ?after }
  case accept =>
    show (rule.map (·, p.track.size + 1)).or p.accept = _
    rw [hp.accept, hp.size]
    cases rule <;> rfl
  case first =>
    show p.first.or (some c) = _
    rw [hp.first]
    cases x.first <;> rfl
  case unread =>
    intro hnone
    cases hfirst : x.first <;> simp [hfirst] at hnone
  case best =>
    intro m hm
    cases rule with
    | none => exact (hp.best m hm).push ..
    | some id =>
      cases hm
      rw [← hp.size]
      exact records_push (hfits.rule id rfl) ..
  case after =>
    intro f hf
    refine ⟨Nat.le_add_left .., ?_⟩
    cases hfirst : x.first with
    | some f' =>
      simp only [hfirst, Option.some_or, Option.mem_some] at hf
      exact hf ▸ (hp.after f' hfirst).2.push ..
    | none =>
      -- This is the first character, so the place behind it is the last one.
      simp only [hfirst, Option.none_or, Option.mem_some] at hf
      have hlast := stood_push tabWidth p c marks rule
      rw [hp.size, hp.unread hfirst] at hlast
      exact hf ▸ hlast

omit [CharStream σ] in
/-- At the end of the stream the probe still mirrors the scan. -/
theorem Mirrors.stop (hp : p.Mirrors t start x) (stream : σ) :
    p.Mirrors t start { x with stream } :=
  { hp with }

omit [CharStream σ] in
/-- A failure changes no place. -/
theorem Mirrors.fail (hp : p.Mirrors t start x) (e : StreamError) (stream : σ) :
    Mirrors t start { p with error := some e } { x with stream, error := some e } where
  caret := hp.caret
  marks := hp.marks
  size := hp.size
  accept := hp.accept
  first := hp.first
  error := rfl
  stamps := hp.stamps
  start := ⟨hp.start.count, hp.start.pos⟩
  unread := hp.unread
  best m hm :=
    have h := hp.best m hm
    ⟨h.rule_lt, h.pos, h.lastPos, h.after.count, h.after.pos⟩
  after f hf :=
    have h := hp.after f hf
    ⟨h.1, h.2.count, h.2.pos⟩

omit [CharStream σ] in
/-- One more character. -/
theorem Mirrors.next? (h : t.Closed) (hp : p.Mirrors t start x)
    (hactive : ∀ q ∈ active, q < t.transitions.size) (tabWidth : Nat) (c : Char) (stream : σ) :
    ∃ p', p.next? t tabWidth active c = some (p', (x.next t tabWidth active stream c).2) ∧
      p'.Mirrors t start (x.next t tabWidth active stream c).1 ∧
      ∀ q ∈ (x.next t tabWidth active stream c).2, q < t.transitions.size := by
  obtain ⟨hstep, hfits⟩ := h.step? (c := c) hp.stamps hactive
  refine ⟨p.push tabWidth c (t.step x.marks active c).1.1 (t.step x.marks active c).2, ?_,
    hp.push rfl hfits, hfits.active⟩
  unfold Probe.next?
  rw [hp.marks, hstep]
  rfl

end Probe

/-- A probe that reads a character looks it up and goes on. -/
theorem probeFrom?_of_read {later : σ} (hread : CharStream.read stream = (.ok (some c), later)) :
    probeFrom? t tabWidth stream p active =
      match p.next? t tabWidth active c with
      | none => none
      | some (p, active) =>
        if active.isEmpty then some (later, p) else probeFrom? t tabWidth later p active := by
  rw [probeFrom?]
  split <;> simp_all

/-- A scan that checks everything is a scan. -/
theorem probeFrom?_eq (h : t.Closed) (hp : p.Mirrors t start x)
    (hactive : ∀ q ∈ active, q < t.transitions.size) (tabWidth : Nat) :
    ∃ p', probeFrom? t tabWidth x.stream p active =
        some ((scanFrom t tabWidth x active).stream, p') ∧
      p'.Mirrors t start (scanFrom t tabWidth x active) := by
  -- The probe takes the same steps as the scan; each look-up succeeds since the states are those of
  -- rows.
  fun_induction scanFrom t tabWidth x active generalizing p with
  | case1 x active stream hread =>
    refine ⟨p, ?_, hp.stop stream⟩
    rw [probeFrom?]
    split <;> simp_all
  | case2 x active e stream hread =>
    refine ⟨{ p with error := some e }, ?_, hp.fail e stream⟩
    rw [probeFrom?]
    split <;> simp_all
  | case3 x active c stream hread =>
    rename_i hempty
    obtain ⟨p', hnext, hp', -⟩ := hp.next? h hactive tabWidth c stream
    refine ⟨p', ?_, hp'⟩
    rw [probeFrom?_of_read hread, hnext]
    exact if_pos hempty
  | case4 x active c stream hread =>
    rename_i hempty ih
    obtain ⟨p', hnext, hp', hactive'⟩ :=
      hp.next? h hactive tabWidth c stream
    obtain ⟨p'', hprobe, hp''⟩ := ih hp' hactive'
    refine ⟨p'', ?_, hp''⟩
    rw [probeFrom?_of_read hread, hnext]
    simp only
    rw [if_neg hempty]
    exact hprobe

end Probes

/-! ### Calls -/

namespace Lexer

/-- Does what the rule of a match asks for. -/
def take? (lx : Lexer σ) (stream : σ) (kept : String) (first : Pos) (p : Probe)
    (rule length : Nat) : Option (Advance σ) := do
  let m ← p.match? rule length
  let _ ← lx.tables.terminals[rule]?
  return lx.take stream kept first m

/-- The result at the end of the input. -/
def finishInput? (lx : Lexer σ) (stream : σ) (kept : String) (entry : LexEntry) :
    Option (Advance σ) :=
  match kept.isEmpty, entry.eofRule with
  | true, some rule => do
    let _ ← lx.tables.terminals[rule]?
    return lx.finishInput stream kept entry
  | _, _ => some (lx.finishInput stream kept entry)

/-- Drops one character, with which no match begins. -/
def drop? (lx : Lexer σ) (stream : σ) (kept : String) (p : Probe) (c : Char) :
    Option (Advance σ) := do
  let pos ← p.track[0]?
  let after ← p.stoodAt? 1
  return lx.drop stream kept ⟨after.count - 1, pos.line, pos.col⟩ c after

/-- The states that are active when a lexical state begins. -/
def start? (lx : Lexer σ) (entry : LexEntry) : Option (Array Nat) :=
  match entry.startRow with
  | some r => lx.tables.row? r
  | none => some #[]

/-- Looks for the longest match from where reading stands. -/
def probe? (lx : Lexer σ) (stream : σ) (entry : LexEntry) : Option (σ × Probe) := do
  let active ← lx.start? entry
  probeFrom? lx.tables lx.tabWidth stream { caret := lx.caret, marks := lx.marks } active

/-- Goes on with what a scan has read. -/
def resume? (lx : Lexer σ) (stream : σ) (kept : String) (first : Pos) (entry : LexEntry)
    (p : Probe) : Option (Advance σ) :=
  match p.accept with
  | some (rule, length) =>
    match putBack stream (p.track.size - length) p.caret.count with
    | .ok stream => lx.take? stream kept first p rule length
    | .error e => some (.finish (.error e) lx stream)
  | none =>
    match p.error, p.first with
    | some e, _ => some (.finish (.error (.stream p.caret.count e)) lx stream)
    | none, none => lx.finishInput? stream kept entry
    | none, some c =>
      match putBack stream (p.track.size - 1) p.caret.count with
      | .ok stream => lx.drop? stream kept p c
      | .error e => some (.finish (.error e) lx stream)

/-- Reads one match in the current lexical state. -/
def advance? (lx : Lexer σ) (stream : σ) (kept : String) (first : Pos) : Option (Advance σ) :=
  match lx.tables.lexStates[lx.lexState]? with
  | none =>
    some (.finish (.error (.noSuchLexState (lx.errorInfo kept))) lx (CharStream.beginToken stream))
  | some entry => do
    let probed ← lx.probe? (CharStream.beginToken stream) entry
    resume? { lx with caret := probed.2.caret, marks := probed.2.marks } probed.1 kept first entry
      probed.2

/-- Reads matches until there is a result, as long as each match uses something up. -/
def run? (lx : Lexer σ) (stream : σ) (kept : String) (first : Pos) :
    Option (Except LexError (Option Token) × Lexer σ × σ) :=
  match lx.advance? stream kept first with
  | none => none
  | some (.finish result lx stream) => some (result, lx, stream)
  | some (.next lx later kept first) =>
    if CharStream.remaining later < CharStream.remaining stream then lx.run? later kept first
    else none
termination_by CharStream.remaining stream

/-- The next token, nothing at the end of the input, or an error. -/
def nextToken? (lx : Lexer σ) : Option (Except LexError (Option Token) × Lexer σ) :=
  match lx.input with
  | none => some (.error .noStream, { lx with lastError := some .noStream })
  | some stream =>
    if lx.isEos then some (.ok none, { lx with lastError := none })
    else do
      let (result, lx, stream) ← { lx with lastError := none }.run? stream "" lx.caret.pos
      let lastError := match result with
        | .error e => some e
        | .ok _ => none
      return (result, { lx with input := some stream, lastError })

variable {lx : Lexer σ} {stream : σ} {kept : String} {first : Pos} {entry : LexEntry} {p : Probe}
  {x : Scan σ} {start after : Caret} {m : Match} {c : Char}

/-- What is read off the track is what the match of the scan carries. -/
theorem take?_eq (hp : p.Mirrors lx.tables start x) (hm : x.best = some m) :
    lx.take? stream kept first p m.rule m.length = some (lx.take stream kept first m) := by
  have hrecords := hp.best m hm
  unfold take? Probe.match?
  rw [if_pos hrecords.pos, hrecords.lastPos, hrecords.after.stoodAt?,
    Array.getElem?_eq_getElem hrecords.rule_lt]
  rfl

omit [CharStream σ] in
/-- At the end of the input the checked look-ups all succeed. -/
theorem finishInput?_eq (h : lx.tables.Closed) (hentry : entry ∈ lx.tables.lexStates) :
    lx.finishInput? stream kept entry = some (lx.finishInput stream kept entry) := by
  unfold finishInput?
  split
  · rename_i rule _ hrule
    rw [Array.getElem?_eq_getElem (h.eofRule entry hentry rule hrule)]
    rfl
  · rfl

/-- The checked move back after an unrecognized character succeeds. -/
theorem drop?_eq (hp : p.Mirrors lx.tables start x) (hfirst : x.first = some (c, after)) :
    lx.drop? stream kept p c = some (lx.drop stream kept start c after) := by
  obtain ⟨hread, hafter⟩ := hp.after _ hfirst
  have hstart := hp.start
  have hsize := hp.size
  -- The position of the first character stands first on the track.
  have hpos : p.track[0]? = some start.pos := by
    rw [Array.getElem?_eq_getElem (by omega), ← Array.getElem?_push_lt (x := p.caret.pos)]
    exact hstart.pos
  have hcount : after.count - 1 = start.count := by
    have hafter : after.count + (p.track.size - 1) = p.caret.count := hafter.count
    have hstart : start.count + p.track.size = p.caret.count := hstart.count
    omega
  unfold drop?
  rw [hpos, hafter.stoodAt?]
  show some (lx.drop stream kept ⟨after.count - 1, start.line, start.col⟩ c after) = _
  rw [hcount]

/-- What the checked lexer does with a probe is what a lexer does with its scan. -/
theorem resume?_eq (h : lx.tables.Closed) (hentry : entry ∈ lx.tables.lexStates)
    (hp : p.Mirrors lx.tables lx.caret x) :
    resume? { lx with caret := x.caret, marks := x.marks } x.stream kept first entry p =
      some (lx.settle entry x kept first) := by
  unfold resume? settle
  rw [hp.accept, hp.size, hp.caret, hp.error, hp.first]
  cases hbest : x.best with
  | some m =>
    simp only [Option.map_some]
    cases putBack x.stream (x.read - m.length) x.caret.count with
    | ok s => exact take?_eq hp hbest
    | error e => rfl
  | none =>
    cases herror : x.error with
    | some e => rfl
    | none =>
      cases hfirst : x.first with
      | none => exact finishInput?_eq h hentry
      | some f =>
        simp only [Option.map_none, Option.map_some]
        cases putBack x.stream (x.read - 1) x.caret.count with
        | ok s => exact drop?_eq hp hfirst
        | error e => rfl

omit [CharStream σ] in
/-- The states that are active first are members of the start row. -/
theorem start?_eq (h : lx.tables.Closed) (hentry : entry ∈ lx.tables.lexStates) :
    lx.start? entry = some ((entry.startRow.map lx.tables.row).getD #[]) ∧
      ∀ q ∈ (entry.startRow.map lx.tables.row).getD #[], q < lx.tables.transitions.size := by
  unfold start?
  cases hrow : entry.startRow with
  | none => exact ⟨rfl, fun q hq => absurd hq (Array.not_mem_empty q)⟩
  | some r => exact ⟨h.row? (h.startRow entry hentry r hrow), fun q hq => h.lt_of_mem_row hq⟩

/-- One match that checks everything is one match. -/
theorem advance?_eq (h : lx.tables.Closed)
    (hmarks : lx.marks.stamps.size = lx.tables.transitions.size) :
    lx.advance? stream kept first = some (lx.advance stream kept first) := by
  unfold advance?
  cases hentry : lx.tables.lexStates[lx.lexState]? with
  | none => rw [advance_of_missing hentry]
  | some entry =>
    rw [advance_of_entry hentry]
    have hmem := Array.mem_of_getElem? hentry
    obtain ⟨hstart, hactive⟩ := start?_eq h hmem
    obtain ⟨p, hprobe, hp⟩ := probeFrom?_eq
      (x := { stream := CharStream.beginToken stream, caret := lx.caret, marks := lx.marks })
      h (Probe.mirrors_start hmarks) hactive lx.tabWidth
    have hprobe : lx.probe? (CharStream.beginToken stream) entry =
        some ((lx.scan (CharStream.beginToken stream) entry).stream, p) := by
      unfold probe?
      rw [hstart]
      exact hprobe
    simp only [hprobe, Option.bind_eq_bind, Option.bind_some, hp.caret, hp.marks]
    exact resume?_eq h hmem hp

/-- A run that checks everything is a run. -/
theorem run?_eq {tables : Tables} (h : tables.Closed) (hlx : lx.Ready tables) :
    lx.run? stream kept first = some (lx.run stream kept first) := by
  have hadvance? : ∀ {lx : Lexer σ} {stream : σ} {kept : String} {first : Pos}, lx.Ready tables →
      lx.advance? stream kept first = some (lx.advance stream kept first) := by
    intro lx stream kept first hlx
    obtain ⟨rfl, hsound⟩ := hlx
    exact advance?_eq h hsound.size
  have hfits : ∀ {r q : Nat}, q ∈ tables.row r → q < tables.transitions.size :=
    fun hq => h.lt_of_mem_row hq
  fun_induction run lx stream kept first with
  | case1 lx stream kept first result lx' stream' hadvance =>
    rw [run?, hadvance? hlx, hadvance]
  | case2 lx stream kept first lx' stream' kept' first' hadvance hlt ih =>
    have hready := ready_advance hfits hlx stream kept first
    rw [hadvance] at hready
    rw [run?, hadvance? hlx, hadvance]
    simp only
    rw [if_pos hlt]
    exact ih hready

/-- With closed tables, a call that checks every index gives what a call gives: no index is out of
range, and the run comes to an end. -/
theorem nextToken?_eq {tables : Tables} (h : tables.Closed) (hlx : lx.Ready tables) :
    lx.nextToken? = some lx.nextToken := by
  unfold nextToken? nextToken
  cases lx.input with
  | none => rfl
  | some stream =>
    simp only
    split
    · rfl
    · have hready : Ready tables { lx with input := some stream, lastError := none } :=
        ⟨hlx.tables_eq, hlx.sound⟩
      rw [run?_eq h hready]
      rfl

end Lexer

end Lexwright

import Lexwright.Proofs.Lexer.Blocks
import Lexwright.Proofs.Lexer.Run
import Lexwright.Proofs.Stream.Offset
import Mathlib.Logic.Function.Basic

/-!
# `Lexwright.Proofs.Lexer.Session`: nothing of the text is lost between calls

A session goes through one stream with several lexers. Between calls a lexical state may be
entered, and the stream may be moved to another lexer or attached anew to the same one.

* `Session.Action`, `Session.calls`: what a user does, and the calls that this makes.
* `Session.Call.Covers`: a call begins behind one part of the text, takes a block, and leaves the
  rest.
* `Session.Stands`: what holds between two actions. `Stands.next`, `Stands.enter` and `Stands.move`
  keep it.
* `Session.exists_blocks`: the blocks of the calls follow each other, up to the end of the text.
-/

set_option autoImplicit false

namespace Lexwright

/-- The lexer has a reader that stands between two parts of a text. -/
def Lexer.Between (lx : Lexer Reader) (before rest : List Char) : Prop :=
  ∃ r, lx.input = some r ∧ r.Between before rest

/-- Where the lexer stands when `rest` is left. -/
def Lexer.cursor (lx : Lexer Reader) (rest : List Char) : Cursor :=
  ⟨lx.lexState, lx.caret, rest, lx.isEos⟩

/-- Lexers that go through one stream, and the one that has it. -/
structure Session (ι : Type) where
  lexers : ι → Lexer Reader
  current : ι

namespace Session

variable {ι : Type}

/-- What a user may do: call the current lexer, let it enter a lexical state, or take the stream
away from it and attach it to a lexer, which becomes the current one. -/
inductive Action (ι : Type) where
  | next
  | enter (lexState : Nat)
  | move (j : ι)

/-- A call: the lexer that was called, before and after the call, and the result. -/
structure Call (ι : Type) where
  lexer : ι
  before : Lexer Reader
  result : Result
  after : Lexer Reader

/-- A part of the text: what went to skipped matches, and then what was returned. -/
structure Block where
  dropped : List Char
  text : List Char

/-- The characters of a block. -/
def Block.chars (b : Block) : List Char := b.dropped ++ b.text

/-- The text that a call returned. -/
def Call.text (call : Call ι) : List Char := call.result.text?.getD []

/-- Every lexical state that is entered is one of the lexer that is current then. -/
def Exist (lexicon : ι → Lexicon) : ι → List (Action ι) → Prop
  | _, [] => True
  | j, .next :: actions => Exist lexicon j actions
  | j, .enter i :: actions => i < (lexicon j).states.length ∧ Exist lexicon j actions
  | _, .move j :: actions => Exist lexicon j actions

/-- The call begins behind `before`, takes the block and leaves `rest`. When it gives nothing, and
when it reaches the end, nothing is left. -/
structure Call.Covers (lexicon : Lexicon) (call : Call ι) (before : List Char) (block : Block)
    (rest : List Char) : Prop where
  starts : call.before.Between before (block.chars ++ rest)
  ends : call.after.Between (before ++ block.chars) rest
  takes : lexicon.Takes call.before.tabWidth (call.before.cursor (block.chars ++ rest)) call.result
    block.dropped block.text rest
  nothing : call.result = .ok none → rest = []
  ended : call.after.isEos = true → rest = []

section Actions

variable [DecidableEq ι]

/-- A session whose lexer `j` starts to read a text. -/
def start (lexers : ι → Lexer Reader) (j : ι) (text : String) : Session ι where
  lexers := Function.update lexers j ((lexers j).attach { source := .ofString text })
  current := j

/-- The session with another state of its current lexer. -/
def withCurrent (s : Session ι) (lx : Lexer Reader) : Session ι :=
  { s with lexers := Function.update s.lexers s.current lx }

/-- The session after an action. -/
def perform (s : Session ι) : Action ι → Session ι
  | .next => s.withCurrent (s.lexers s.current).nextToken.2
  | .enter i => s.withCurrent ((s.lexers s.current).setLexState i)
  | .move j =>
    let (input, lx) := (s.lexers s.current).detach
    let lexers := (s.withCurrent lx).lexers
    match input with
    | some stream => ⟨Function.update lexers j ((lexers j).attach stream), j⟩
    | none => ⟨lexers, s.current⟩

/-- The call that the current lexer makes of an action. -/
def call? (s : Session ι) : Action ι → Option (Call ι)
  | .next =>
    let lx := s.lexers s.current
    some ⟨s.current, lx, lx.nextToken.1, lx.nextToken.2⟩
  | .enter _ => none
  | .move _ => none

/-- The calls among some actions. -/
def calls (s : Session ι) : List (Action ι) → List (Call ι)
  | [] => []
  | action :: actions => (s.call? action).toList ++ (s.perform action).calls actions

end Actions

variable {lexicon : ι → Lexicon} {options : ι → Options} {k : ι → Compilation} {text : List Char}
  {s : Session ι} {cursor : Cursor}

/-! ### What holds between two actions -/

/-- Every lexer has the tables of its lexicon, the current one stands where the cursor stands, and
the end is only reached when nothing is left. -/
structure Stands (lexicon : ι → Lexicon) (k : ι → Compilation) (text : List Char) (s : Session ι)
    (cursor : Cursor) : Prop where
  built : ∀ j, (s.lexers j).Built (k j).tables
  holds : (s.lexers s.current).Holds (k s.current).tables (Reader.Within text)
    (s.lexers s.current).tabWidth (lexicon s.current).states.length cursor
  ended : cursor.ended = true → cursor.rest = []

/-- Where the current lexer stands, its reader stands in the text. -/
theorem Stands.between (h : Stands lexicon k text s cursor) :
    ∃ before, text = before ++ cursor.rest ∧
      (s.lexers s.current).Between before cursor.rest ∧
      (s.lexers s.current).cursor cursor.rest = cursor := by
  obtain ⟨stream, hinput, hstands⟩ := h.holds
  obtain ⟨taken, hwithin⟩ := hstands.stream
  obtain ⟨before, htext, hbetween⟩ := hwithin.between
  refine ⟨before, htext, ⟨stream, hinput, hbetween⟩, ?_⟩
  unfold Lexer.cursor
  rw [hstands.lexState, hstands.caret, hstands.isEos]

section Actions

variable [DecidableEq ι]

/-- Replacing one lexer by another of its tables leaves all built. -/
theorem built_update {lexers : ι → Lexer Reader} {lx : Lexer Reader} {i : ι}
    (hlexers : ∀ j, (lexers j).Built (k j).tables) (hlx : lx.Built (k i).tables) (j : ι) :
    (Function.update lexers i lx j).Built (k j).tables := by
  by_cases hj : j = i
  · subst hj
    rwa [Function.update_self]
  · rw [Function.update_of_ne hj]
    exact hlexers j

omit [DecidableEq ι] in
/-- A lexer that holds a cursor has the width of a tab it was given. -/
theorem tabWidth_eq_of_holds {σ : Type} {tables : Tables}
    {At : σ → List Char → List Char → Prop} {tabWidth states : Nat} {lx : Lexer σ}
    (h : lx.Holds tables At tabWidth states cursor) : lx.tabWidth = tabWidth := by
  obtain ⟨_, _, hstands⟩ := h
  exact hstands.tabWidth_eq

/-- The session stands wherever its current lexer is left by what it does. -/
theorem Stands.withCurrent {lx : Lexer Reader} {cursor' : Cursor}
    (h : Stands lexicon k text s cursor) (hbuilt : lx.Built (k s.current).tables)
    (hholds : lx.Holds (k s.current).tables (Reader.Within text) (s.lexers s.current).tabWidth
      (lexicon s.current).states.length cursor')
    (hended : cursor'.ended = true → cursor'.rest = []) :
    Stands lexicon k text (s.withCurrent lx) cursor' := by
  refine ⟨built_update h.built hbuilt, ?_, hended⟩
  show (Function.update s.lexers s.current lx s.current).Holds (k s.current).tables _
    (Function.update s.lexers s.current lx s.current).tabWidth _ _
  rw [Function.update_self, tabWidth_eq_of_holds hholds]
  exact hholds

/-- Entering a state keeps the place in the text. -/
theorem Stands.enter {i : Nat} (h : Stands lexicon k text s cursor)
    (hi : i < (lexicon s.current).states.length) :
    Stands lexicon k text (s.perform (.enter i)) { cursor with lexState := i } := by
  exact h.withCurrent ((h.built _).setLexState i) (h.holds.enter hi) h.ended

/-- The stream is moved as it is: what was left before is left afterwards. -/
theorem Stands.move (hk : ∀ j, compile (lexicon j) (options j) = .ok (k j))
    (h : Stands lexicon k text s cursor) (j : ι) :
    Stands lexicon k text (s.perform (.move j)) ⟨0, .start, cursor.rest, false⟩ ∧
      (s.perform (.move j)).current = j := by
  obtain ⟨stream, hinput, hs⟩ := h.holds
  obtain ⟨taken, hwithin⟩ := hs.stream
  have hbuilt := built_update h.built (h.built s.current).detach
  have hmove : s.perform (.move j) =
      ⟨Function.update (s.withCurrent (s.lexers s.current).detach.2).lexers j
        (((s.withCurrent (s.lexers s.current).detach.2).lexers j).attach stream), j⟩ := by
    unfold perform Lexer.detach
    simp only [hinput]
  rw [hmove]
  refine ⟨⟨built_update hbuilt ((hbuilt j).attach stream), ?_, fun h => (nomatch h)⟩, rfl⟩
  simp only [Function.update_self]
  exact Lexer.holds_attach_of_at (hk j) ((s.withCurrent _).lexers j) (hbuilt j) hwithin

/-- A call takes a block from what is left, and the session stands behind the block. -/
theorem Stands.next (hk : ∀ j, compile (lexicon j) (options j) = .ok (k j))
    (h : Stands lexicon k text s cursor) :
    ∃ cursor', Stands lexicon k text (s.perform .next) cursor' ∧
      ∃ before block, text = before ++ block.chars ++ cursor'.rest ∧
        cursor.rest = block.chars ++ cursor'.rest ∧
        ∀ call ∈ s.call? .next, call.Covers (lexicon call.lexer) before block cursor'.rest := by
  obtain ⟨cursor', hcall, hholds⟩ := Lexer.call_nextToken (Reader.faithful_within text)
    (hk s.current) h.holds
  obtain ⟨dropped, shown, htakes, hnone, hended⟩ := hcall.takes h.ended
  have hafter : Stands lexicon k text (s.perform .next) cursor' :=
    h.withCurrent (h.built s.current).nextToken hholds hended
  obtain ⟨before, htext, hbefore, hcursor⟩ := h.between
  obtain ⟨before', htext', hbetween, hcursor'⟩ := hafter.between
  -- Both places are in the same text, so what lies between them is the block.
  have hplace : before' = before ++ (dropped ++ shown) := by
    rw [htext, htakes.rest_eq, ← List.append_assoc] at htext'
    exact (List.append_cancel_right htext').symm
  have hlexer : (s.perform .next).lexers (s.perform .next).current =
      (s.lexers s.current).nextToken.2 := Function.update_self ..
  refine ⟨cursor', hafter, before, ⟨dropped, shown⟩, ?_, htakes.rest_eq, fun call hmem => ?_⟩
  · rw [htext', hplace]
    rfl
  · cases hmem
    have hrest : cursor.rest = Block.chars ⟨dropped, shown⟩ ++ cursor'.rest := htakes.rest_eq
    refine ⟨?_, ?_, ?_, hnone, fun heos => hended ?_⟩
    · rw [← hrest]
      exact hbefore
    · rw [← hlexer]
      exact hplace ▸ hbetween
    · rw [← hrest, hcursor]
      exact htakes
    · rw [← hcursor', hlexer]
      exact heos

/-- The blocks of calls follow each other from behind `before`, each with what the blocks behind it
and `rest` leave. -/
structure Follow (lexicon : ι → Lexicon) (calls : List (Call ι)) (before : List Char)
    (blocks : List Block) (rest : List Char) : Prop where
  length_eq : blocks.length = calls.length
  covers : ∀ (n : Nat) (call : Call ι) (block : Block), calls[n]? = some call →
    blocks[n]? = some block →
    call.Covers (lexicon call.lexer) (before ++ (blocks.take n).flatMap Block.chars) block
      ((blocks.drop (n + 1)).flatMap Block.chars ++ rest)

omit [DecidableEq ι] in
/-- A call that covers a block comes before the calls that follow it. -/
theorem Follow.cons {call : Call ι} {calls : List (Call ι)} {block : Block} {blocks : List Block}
    {before rest : List Char}
    (h : call.Covers (lexicon call.lexer) before block (blocks.flatMap Block.chars ++ rest))
    (hcalls : Follow lexicon calls (before ++ block.chars) blocks rest) :
    Follow lexicon (call :: calls) before (block :: blocks) rest := by
  refine ⟨congrArg (· + 1) hcalls.length_eq, fun n call' block' hcall hblock => ?_⟩
  cases n with
  | zero =>
    cases hcall
    cases hblock
    rw [List.take_zero, List.flatMap_nil, List.append_nil]
    exact h
  | succ n =>
    rw [List.take_succ_cons, List.flatMap_cons, ← List.append_assoc]
    exact hcalls.covers n call' block' hcall hblock

/-- The blocks of the calls among some actions follow each other, by induction on the actions. -/
theorem Stands.follow (hk : ∀ j, compile (lexicon j) (options j) = .ok (k j))
    (h : Stands lexicon k text s cursor) {actions : List (Action ι)}
    (hactions : Exist lexicon s.current actions) :
    ∃ (before : List Char) (blocks : List Block) (rest : List Char),
      text = before ++ cursor.rest ∧ cursor.rest = blocks.flatMap Block.chars ++ rest ∧
      Follow lexicon (s.calls actions) before blocks rest := by
  induction actions generalizing s cursor with
  | nil =>
    obtain ⟨before, htext, -⟩ := h.between
    exact ⟨before, [], cursor.rest, htext, rfl, rfl, fun n call block hcall => (nomatch hcall)⟩
  | cons action actions ih =>
    cases action with
    | next =>
      obtain ⟨cursor', hafter, before, block, htext, hrest, hcovers⟩ := h.next hk
      obtain ⟨before', blocks, rest, htext', hrest', hfollow⟩ := ih hafter hactions
      -- The later blocks begin where the first one ends.
      obtain rfl : before' = before ++ block.chars :=
        List.append_cancel_right (htext'.symm.trans htext)
      refine ⟨before, block :: blocks, rest, ?_, ?_, .cons ?_ hfollow⟩
      · rw [htext, hrest, List.append_assoc]
      · rw [hrest, hrest', List.flatMap_cons, List.append_assoc]
      · rw [← hrest']
        exact hcovers _ rfl
    | enter i =>
      have hlater := ih (h.enter hactions.1) hactions.2
      exact hlater
    | move j =>
      obtain ⟨hafter, hcurrent⟩ := h.move hk j
      have hlater := ih hafter (hcurrent.symm ▸ hactions)
      exact hlater

/-- A session that starts to read a text stands at its start. -/
theorem stands_start (hk : ∀ j, compile (lexicon j) (options j) = .ok (k j))
    {lexers : ι → Lexer Reader} (hlexers : ∀ j, (lexers j).Built (k j).tables) (j : ι)
    (text : String) :
    Stands lexicon k text.toList (start lexers j text) ⟨0, .start, text.toList, false⟩ := by
  refine ⟨built_update hlexers ((hlexers j).attach _), ?_, fun h => (nomatch h)⟩
  unfold start
  simp only [Function.update_self]
  exact Lexer.holds_attach_of_at (hk j) (lexers j) (hlexers j) (Reader.within_ofString text)

end Actions

/-! ### Whole sessions -/

section Follow

variable {calls : List (Call ι)} {blocks : List Block} {before rest : List Char} {n : Nat}
  {call : Call ι}

/-- Each of the calls has its block. -/
theorem Follow.exists_block (h : Follow lexicon calls before blocks rest)
    (hcall : calls[n]? = some call) : ∃ block, blocks[n]? = some block := by
  obtain ⟨hn, -⟩ := List.getElem?_eq_some_iff.1 hcall
  rw [← h.length_eq] at hn
  exact ⟨blocks[n], List.getElem?_eq_getElem hn⟩

/-- The blocks up to a call and those after it cover what all of them do. -/
theorem flatMap_take_drop (blocks : List Block) (n : Nat) :
    (blocks.take n).flatMap Block.chars ++ (blocks.drop n).flatMap Block.chars =
      blocks.flatMap Block.chars := by
  rw [← List.flatMap_append, List.take_append_drop]

/-- When nothing is left behind a call, the blocks up to it are the text. -/
theorem flatMap_take_of_rest_eq_nil (hn : (blocks.drop n).flatMap Block.chars ++ rest = []) :
    (blocks.take n).flatMap Block.chars = blocks.flatMap Block.chars ++ rest := by
  rw [← flatMap_take_drop blocks n, List.append_assoc, hn, List.append_nil]

/-- Without rules of the category `skip`, the blocks are the texts of the calls. -/
theorem Follow.map_text (h : Follow lexicon calls before blocks rest)
    (hskip : ∀ j, ∀ x ∈ (lexicon j).numbered, x.2.category ≠ .skip) :
    calls.map Call.text = blocks.map Block.chars := by
  refine List.ext_getElem ?_ fun n hn hn' => ?_
  · rw [List.length_map, List.length_map, h.length_eq]
  · rw [List.length_map] at hn hn'
    have htakes := (h.covers n calls[n] blocks[n] (List.getElem?_eq_getElem hn)
      (List.getElem?_eq_getElem hn')).takes
    rw [List.getElem_map, List.getElem_map, Call.text, htakes.text_eq, Block.chars,
      htakes.dropped_eq_nil (hskip _)]
    rfl

end Follow

/-- No character is lost, read twice or moved. Whatever a user does with compiled lexers and a text
that they read in turn, the blocks that the calls take follow each other, and what a call returns
ends its block behind what skipped matches dropped. When a lexer has reached the end, the blocks up
to then are the text; without rules of the category `skip`, the texts returned before the call that
gives nothing are. -/
theorem exists_blocks [DecidableEq ι] (hk : ∀ j, compile (lexicon j) (options j) = .ok (k j))
    {lexers : ι → Lexer Reader} (hlexers : ∀ j, (lexers j).Built (k j).tables) (text : String)
    (j : ι) {actions : List (Action ι)} (hactions : Exist lexicon j actions) :
    ∃ blocks rest, text.toList = blocks.flatMap Block.chars ++ rest ∧
      Follow lexicon ((start lexers j text).calls actions) [] blocks rest ∧
      (∀ (n : Nat) (call : Call ι), ((start lexers j text).calls actions)[n]? = some call →
        call.after.isEos = true →
          (blocks.take (n + 1)).flatMap Block.chars = text.toList) ∧
      ((∀ j, ∀ x ∈ (lexicon j).numbered, x.2.category ≠ .skip) →
        ∀ (n : Nat) (call : Call ι), ((start lexers j text).calls actions)[n]? = some call →
          call.result = .ok none →
            (((start lexers j text).calls actions).take n).flatMap Call.text = text.toList) := by
  obtain ⟨before, blocks, rest, htext, hrest, hfollow⟩ :=
    (stands_start hk hlexers j text).follow hk hactions
  obtain rfl : before = [] := List.append_left_eq_self.1 htext.symm
  have hrest : text.toList = blocks.flatMap Block.chars ++ rest := hrest
  refine ⟨blocks, rest, hrest, hfollow, fun n call hcall heos => ?_,
    fun hskip n call hcall hnone => ?_⟩
  · obtain ⟨block, hblock⟩ := hfollow.exists_block hcall
    rw [hrest]
    exact flatMap_take_of_rest_eq_nil ((hfollow.covers n call block hcall hblock).ended heos)
  · obtain ⟨block, hblock⟩ := hfollow.exists_block hcall
    have hcovers := hfollow.covers n call block hcall hblock
    -- The call itself takes nothing, so the blocks before it are the text.
    have hchars : block.chars = [] := by
      have htext := hcovers.takes.text_eq
      rw [hnone] at htext
      rw [Block.chars, hcovers.takes.dropped_eq_nil (hskip _), ← Option.some.inj htext]
      rfl
    have hlater : (blocks.drop n).flatMap Block.chars ++ rest = [] := by
      obtain ⟨hn, rfl⟩ := List.getElem?_eq_some_iff.1 hblock
      rw [List.drop_eq_getElem_cons hn, List.flatMap_cons, hchars, List.nil_append]
      exact hcovers.nothing hnone
    rw [hrest, ← flatMap_take_of_rest_eq_nil hlater, List.flatMap_def, List.flatMap_def,
      List.map_take, List.map_take, hfollow.map_text hskip]

/-- Two lexers of the sample lexicon read a text in turn. The second one drops the blank, and keeps
the bracket for its word. -/
theorem exists_blocks_words : ∃ k, compile Lexicon.words Options.quiet = .ok k ∧
    let lexicon : Bool → Lexicon := fun _ => Lexicon.words
    let s : Session Bool := start (fun _ => .ofTables k.tables) false "ab (abb"
    let actions : List (Action Bool) := [.next, .move true, .next, .enter 0, .next]
    Exist lexicon false actions ∧ ∃ blocks rest, blocks.length = 3 ∧
      "ab (abb".toList = blocks.flatMap Block.chars ++ rest ∧
      Follow lexicon (s.calls actions) [] blocks rest := by
  obtain ⟨k, hk⟩ := exists_compile rfl hasNoErrors_words rfl
  have hactions : Exist (fun _ => Lexicon.words) false
      [.next, .move true, .next, .enter 0, .next] := ⟨by decide, trivial⟩
  obtain ⟨blocks, rest, htext, hfollow, -⟩ := exists_blocks (fun _ : Bool => hk)
    (fun _ => .ofTables) "ab (abb" false hactions
  exact ⟨k, hk, hactions, blocks, rest, hfollow.length_eq, htext, hfollow⟩

end Session

end Lexwright

import Lexwright.Lexer.Basic
import Lexwright.Proofs.LongestMatch

/-!
# `Lexwright.Proofs.Lexer.Reference`: what the calls of a lexer are to return

The reference goes through a text by what lexical states select from it. It knows neither tables
nor streams, and never puts anything back.

* `Cursor`: where reading stands.
* `Lexicon.Turn`: what becomes of the longest match, of the lack of one, and of the end.
* `Lexicon.Reads`: turns until there is a result.
* `Lexicon.Answers`: the results of calls, with lexical states entered between them.
* `Lexicon.Answers.eq`: there is at most one list of results.
* `Lexicon.Reads.of_not_ended`: turns before the end move on, and return a text or an error that is
  not about the end.
* `Lexicon.Bare`: the turns from here on return no token that has text.
-/

set_option autoImplicit false

namespace Lexwright

/-- Moves past the characters of a text. -/
def Caret.advanceAll (tabWidth : Nat) (k : Caret) (w : List Char) : Caret :=
  w.foldl (advance tabWidth) k

/-- Where reading stands: the lexical state, the caret, the characters that are left, and whether
the end was reached. -/
structure Cursor where
  lexState : Nat
  caret : Caret
  rest : List Char
  ended : Bool

/-- Moving over a word counts its characters. -/
theorem Caret.count_advanceAll (tabWidth : Nat) (k : Caret) (w : List Char) :
    (k.advanceAll tabWidth w).count = k.count + w.length := by
  induction w generalizing k with
  | nil => rfl
  | cons c w ih =>
    rw [show k.advanceAll tabWidth (c :: w) = (k.advance tabWidth c).advanceAll tabWidth w from rfl,
      ih, count_advance, List.length_cons, Nat.add_assoc, Nat.add_comm 1]

/-- The start of a text, in the first lexical state. -/
def Cursor.start (text : List Char) : Cursor := ⟨0, .start, text, false⟩

/-- Moves past `n` characters. -/
def Cursor.consume (tabWidth : Nat) (k : Cursor) (n : Nat) : Cursor :=
  { k with caret := k.caret.advanceAll tabWidth (k.rest.take n), rest := k.rest.drop n }

/-- The number of characters of the text: those behind the cursor and those that are left. -/
def Cursor.total (k : Cursor) : Nat := k.caret.count + k.rest.length

/-- Consuming characters keeps the length of the whole text. -/
theorem Cursor.total_consume (tabWidth : Nat) (k : Cursor) (n : Nat) :
    (k.consume tabWidth n).total = k.total := by
  unfold total consume
  rw [Caret.count_advanceAll, List.length_take, List.length_drop]
  omega

/-- The result of a call. -/
abbrev Result : Type := Except LexError (Option Token)

/-- What becomes of one match: a result, or the text that is kept for the next token with the
position of its first character. -/
inductive Outcome where
  | finish (result : Result) (after : Cursor)
  | next (after : Cursor) (kept : String) (first : Pos)

/-- The cursor after one match. -/
def Outcome.after : Outcome → Cursor
  | finish _ after => after
  | next after _ _ => after

/-- A token with some text, or an error about a character. -/
def Result.IsProper (result : Result) : Prop :=
  (∃ token, result = .ok (some token) ∧ token.text ≠ "") ∨
    ∃ info, result = .error (.unrecognizedChar info)

/-- The result is not a token that has text. -/
def Result.IsBare (result : Result) : Prop :=
  ∀ token, result = .ok (some token) → token.text = ""

/-- What a user may do between the start and the end of a text. -/
inductive Request where
  | next
  | enter (lexState : Nat)

namespace Lexicon

variable {lexicon : Lexicon} {tabWidth : Nat} {k k' k'' : Cursor} {kept : String} {first : Pos}
  {result result' : Result}

/-- The rule is selected from what is left, with the first `n` characters. -/
def Longest (lexicon : Lexicon) (k : Cursor) (rule : Rule) (n : Nat) : Prop :=
  ∃ id, lexicon.Selects k.lexState k.rest id n ∧
    lexicon.numbered[id]? = some (k.lexState, rule)

/-- The rule stands for the end of the input in the lexical state. -/
def EofRule (lexicon : Lexicon) (i : Nat) (rule : Rule) : Prop :=
  ∃ id : Nat, lexicon.numbered[id]? = some (i, rule) ∧ rule.regex.isEof = true

/-- Moves past a match of the rule, into the lexical state that the rule names if it names one. -/
def afterMatch (lexicon : Lexicon) (tabWidth : Nat) (k : Cursor) (rule : Rule) (n : Nat) :
    Cursor :=
  { k.consume tabWidth n with
    lexState := (rule.nextState.bind fun name =>
      lexicon.states.findIdx? (·.name = name)).getD k.lexState }

/-- What a match of the first `n` characters comes to, by the category of its rule. -/
def onMatch (lexicon : Lexicon) (tabWidth : Nat) (k : Cursor) (kept : String) (first : Pos)
    (rule : Rule) (n : Nat) : Outcome :=
  let after := lexicon.afterMatch tabWidth k rule n
  let text := kept ++ String.ofList (k.rest.take n)
  let span : Span := ⟨first, (k.consume tabWidth (n - 1)).caret.pos⟩
  match rule.category with
  | .token => .finish (.ok (some ⟨rule.kind, 0, text, span⟩)) after
  | .special => .finish (.ok (some ⟨rule.kind, 1, text, span⟩)) after
  | .skip => .next after "" after.caret.pos
  | .more => .next after text first

/-- The token of the rule for the end of the input, if the rule returns tokens. -/
def eofToken (rule : Rule) : Option Token :=
  match rule.category with
  | .token => some ⟨rule.kind, 0, "", .empty⟩
  | .special => some ⟨rule.kind, 1, "", .empty⟩
  | .skip => none
  | .more => none

/-- What the end of the text comes to: text that is kept is an error, and else there may be a
token. -/
def onEnd (k : Cursor) (kept : String) (eof : Option Rule) : Outcome :=
  let result : Result :=
    if kept = "" then .ok (eof.bind eofToken)
    else .error (.endOfStream ⟨k.caret, none, k.lexState, kept⟩)
  .finish result { k with ended := true }

/-- One turn: the longest match, or one character if there is none, or the end of the text. -/
inductive Turn (lexicon : Lexicon) (tabWidth : Nat) (k : Cursor) (kept : String) (first : Pos) :
    Outcome → Prop where
  | matched {rule : Rule} {n : Nat} (h : lexicon.Longest k rule n) :
      Turn lexicon tabWidth k kept first (lexicon.onMatch tabWidth k kept first rule n)
  | unrecognized {c : Char} {rest : List Char} (hnone : ∀ rule n, ¬lexicon.Longest k rule n)
      (hrest : k.rest = c :: rest) :
      Turn lexicon tabWidth k kept first (.finish
        (.error (.unrecognizedChar ⟨k.caret, some c, k.lexState, kept ++ String.singleton c⟩))
        (k.consume tabWidth 1))
  | ended {eof : Option Rule} (hrest : k.rest = [])
      (heof : ∀ rule, eof = some rule ↔ lexicon.EofRule k.lexState rule) :
      Turn lexicon tabWidth k kept first (onEnd k kept eof)

/-- Turns until there is a result. -/
inductive Reads (lexicon : Lexicon) (tabWidth : Nat) :
    Cursor → String → Pos → Result → Cursor → Prop where
  | finish {k k' : Cursor} {kept : String} {first : Pos} {result : Result}
      (h : lexicon.Turn tabWidth k kept first (.finish result k')) :
      Reads lexicon tabWidth k kept first result k'
  | next {k k' k'' : Cursor} {kept kept' : String} {first first' : Pos} {result : Result}
      (h : lexicon.Turn tabWidth k kept first (.next k' kept' first'))
      (rest : Reads lexicon tabWidth k' kept' first' result k'') :
      Reads lexicon tabWidth k kept first result k''

/-- One call: after the end of the text it gives nothing. -/
inductive Call (lexicon : Lexicon) (tabWidth : Nat) : Cursor → Result → Cursor → Prop where
  | ended {k : Cursor} (h : k.ended = true) : Call lexicon tabWidth k (.ok none) k
  | reads {k k' : Cursor} {result : Result} (h : k.ended = false)
      (hreads : lexicon.Reads tabWidth k "" k.caret.pos result k') :
      Call lexicon tabWidth k result k'

/-- No turns from here on return a token that has text. -/
def Bare (lexicon : Lexicon) (tabWidth : Nat) (k : Cursor) (kept : String) (first : Pos) : Prop :=
  ∀ result k', lexicon.Reads tabWidth k kept first result k' → result.IsBare

/-- The results of the calls among some requests. -/
inductive Answers (lexicon : Lexicon) (tabWidth : Nat) :
    Cursor → List Request → List Result → Prop where
  | nil {k : Cursor} : Answers lexicon tabWidth k [] []
  | next {k k' : Cursor} {result : Result} {requests : List Request} {results : List Result}
      (h : lexicon.Call tabWidth k result k')
      (rest : Answers lexicon tabWidth k' requests results) :
      Answers lexicon tabWidth k (.next :: requests) (result :: results)
  | enter {k : Cursor} {i : Nat} {requests : List Request} {results : List Result}
      (h : i < lexicon.states.length)
      (rest : Answers lexicon tabWidth { k with lexState := i } requests results) :
      Answers lexicon tabWidth k (.enter i :: requests) results

/-! ### There is at most one answer -/

/-- There is one longest match at most. -/
theorem Longest.eq {rule rule' : Rule} {n n' : Nat} (h : lexicon.Longest k rule n)
    (h' : lexicon.Longest k rule' n') : rule = rule' ∧ n = n' := by
  obtain ⟨id, hselects, hrule⟩ := h
  obtain ⟨id', hselects', hrule'⟩ := h'
  obtain ⟨rfl, rfl⟩ := hselects.eq hselects'
  rw [hrule] at hrule'
  cases hrule'
  exact ⟨rfl, rfl⟩

/-- There is no match at the end of the text. -/
theorem Longest.rest_ne_nil {rule : Rule} {n : Nat} (h : lexicon.Longest k rule n) :
    k.rest ≠ [] := by
  obtain ⟨id, hselects, -⟩ := h
  intro hnil
  have hpos := hselects.pos
  have hle := hselects.le
  rw [hnil] at hle
  exact absurd (Nat.le_trans hpos hle) (Nat.not_succ_le_zero 0)

/-- A turn has one outcome. -/
theorem Turn.eq {o o' : Outcome} (h : lexicon.Turn tabWidth k kept first o)
    (h' : lexicon.Turn tabWidth k kept first o') : o = o' := by
  cases h with
  | matched h =>
    cases h' with
    | matched h' =>
      obtain ⟨rfl, rfl⟩ := h.eq h'
      rfl
    | unrecognized hnone => exact absurd h (hnone _ _)
    | ended hrest => exact absurd hrest h.rest_ne_nil
  | unrecognized hnone hrest =>
    cases h' with
    | matched h' => exact absurd h' (hnone _ _)
    | unrecognized _ hrest' =>
      rw [hrest] at hrest'
      cases hrest'
      rfl
    | ended hrest' =>
      rw [hrest] at hrest'
      cases hrest'
  | ended hrest heof =>
    cases h' with
    | matched h' => exact absurd hrest h'.rest_ne_nil
    | unrecognized _ hrest' =>
      rw [hrest] at hrest'
      cases hrest'
    | ended _ heof' => rw [Option.ext fun rule => (heof rule).trans (heof' rule).symm]

/-- A call has one result and leaves one cursor, whatever it kept before. -/
theorem Reads.eq (h : lexicon.Reads tabWidth k kept first result k')
    (h' : lexicon.Reads tabWidth k kept first result' k'') : result = result' ∧ k' = k'' := by
  induction h with
  | finish h =>
    cases h' with
    | finish h' =>
      cases h.eq h'
      exact ⟨rfl, rfl⟩
    | next h' => cases h.eq h'
  | next h _ ih =>
    cases h' with
    | finish h' => cases h.eq h'
    | next h' rest' =>
      cases h.eq h'
      exact ih rest'

/-- A call has one result and leaves one cursor. -/
theorem Call.eq (h : lexicon.Call tabWidth k result k')
    (h' : lexicon.Call tabWidth k result' k'') : result = result' ∧ k' = k'' := by
  cases h with
  | ended h =>
    cases h' with
    | ended => exact ⟨rfl, rfl⟩
    | reads h' =>
      rw [h] at h'
      cases h'
  | reads h hreads =>
    cases h' with
    | ended h' =>
      rw [h] at h'
      cases h'
    | reads _ hreads' => exact hreads.eq hreads'

/-- The requests have one list of results. -/
theorem Answers.eq {requests : List Request}
    {results results' : List Result} (h : lexicon.Answers tabWidth k requests results)
    (h' : lexicon.Answers tabWidth k requests results') : results = results' := by
  induction h generalizing results' with
  | nil =>
    cases h'
    rfl
  | next hcall _ ih =>
    cases h' with
    | next hcall' rest' =>
      obtain ⟨rfl, rfl⟩ := hcall.eq hcall'
      rw [ih rest']
  | enter _ _ ih =>
    cases h' with
    | enter _ rest' => exact ih rest'

/-! ### Where turns lead -/

variable {o : Outcome} {n : Nat}

/-- A match has a character at least. -/
theorem Longest.pos {rule : Rule} (h : lexicon.Longest k rule n) : 1 ≤ n := by
  obtain ⟨id, hselects, -⟩ := h
  exact hselects.pos

/-- Moving on leaves less, if there is something left. -/
theorem length_rest_consume_lt (tabWidth : Nat) (hn : 1 ≤ n) (hrest : k.rest ≠ []) :
    (k.consume tabWidth n).rest.length < k.rest.length := by
  have hpos := List.length_pos_iff.2 hrest
  show (k.rest.drop n).length < _
  rw [List.length_drop]
  omega

/-- A turn before the end of the text moves on, and does not reach the end. -/
theorem Turn.of_rest_ne_nil (h : lexicon.Turn tabWidth k kept first o) (hrest : k.rest ≠ []) :
    o.after.rest.length < k.rest.length ∧ o.after.ended = k.ended := by
  cases h with
  | @matched rule n h =>
    have hlt := length_rest_consume_lt tabWidth h.pos hrest
    unfold onMatch
    cases rule.category <;> exact ⟨hlt, rfl⟩
  | unrecognized => exact ⟨length_rest_consume_lt tabWidth (Nat.le_refl 1) hrest, rfl⟩
  | ended h => exact absurd h hrest

/-- A turn neither adds nor loses characters. -/
theorem Turn.total_eq (h : lexicon.Turn tabWidth k kept first o) : o.after.total = k.total := by
  cases h with
  | @matched rule n =>
    have htotal := k.total_consume tabWidth n
    unfold onMatch
    cases rule.category <;> exact htotal
  | unrecognized => exact k.total_consume tabWidth 1
  | ended => rfl

/-- A turn reaches the end at the end of the text. -/
theorem Turn.rest_ne_nil (h : lexicon.Turn tabWidth k kept first o)
    (hended : ∀ result after, o = .finish result after → after.ended = false) : k.rest ≠ [] := by
  cases h with
  | matched h => exact h.rest_ne_nil
  | unrecognized _ hrest => exact hrest ▸ List.cons_ne_nil _ _
  | ended => cases hended _ _ rfl

/-- A turn without a result does not reach the end. -/
theorem Turn.ended_eq_of_next {kept' : String} {first' : Pos}
    (h : lexicon.Turn tabWidth k kept first (.next k' kept' first')) : k'.ended = k.ended := by
  have hrest := h.rest_ne_nil fun _ _ ho => nomatch ho
  exact (h.of_rest_ne_nil hrest).2

/-- A turn that does not reach the end returns a token with some text, or an error about a
character. -/
theorem Turn.isProper (h : lexicon.Turn tabWidth k kept first (.finish result k'))
    (hended : k'.ended = false) : result.IsProper := by
  generalize ho : Outcome.finish result k' = o at h
  cases h with
  | @matched rule n h =>
    have htext : kept ++ String.ofList (k.rest.take n) ≠ "" := by
      intro hempty
      have hlist := congrArg String.toList hempty
      rw [String.toList_append, String.toList_ofList] at hlist
      obtain ⟨-, htake⟩ := List.append_eq_nil_iff.1 hlist
      rcases List.take_eq_nil_iff.1 htake with hzero | hnil
      · exact absurd h.pos (by omega)
      · exact h.rest_ne_nil hnil
    unfold onMatch at ho
    cases hcategory : rule.category <;> rw [hcategory] at ho <;> cases ho
    · exact Or.inl ⟨_, rfl, htext⟩
    · exact Or.inl ⟨_, rfl, htext⟩
  | unrecognized =>
    cases ho
    exact Or.inr ⟨_, rfl⟩
  | ended =>
    cases ho
    cases hended

/-- The same for turns until there is a result, by induction on them. -/
theorem Reads.of_not_ended (h : lexicon.Reads tabWidth k kept first result k')
    (hended : k'.ended = false) :
    result.IsProper ∧ k'.rest.length < k.rest.length ∧ k'.total = k.total := by
  induction h with
  | finish h =>
    have hrest := h.rest_ne_nil fun _ _ ho => by
      cases ho
      exact hended
    exact ⟨h.isProper hended, (h.of_rest_ne_nil hrest).1, h.total_eq⟩
  | next h rest ih =>
    obtain ⟨hproper, hlt, htotal⟩ := ih hended
    have hrest := h.rest_ne_nil fun _ _ ho => nomatch ho
    exact ⟨hproper, Nat.lt_trans hlt (h.of_rest_ne_nil hrest).1, htotal.trans h.total_eq⟩

/-- Where nothing matches, a turn returns an error, or a token for the end of the input. -/
theorem bare_of_not_longest (hnone : ∀ rule n, ¬lexicon.Longest k rule n) :
    lexicon.Bare tabWidth k kept first := by
  intro result k' h token htoken
  -- The turns are one turn, as only a match goes on.
  cases h with
  | finish h =>
    generalize ho : Outcome.finish result k' = o at h
    cases h with
    | matched h => exact absurd h (hnone _ _)
    | unrecognized =>
      cases ho
      cases htoken
    | @ended eof =>
      unfold onEnd at ho
      cases ho
      by_cases hkept : kept = ""
      · rw [if_pos hkept] at htoken
        obtain ⟨rule, -, hrule⟩ := Option.bind_eq_some_iff.1 (Except.ok.inj htoken)
        unfold eofToken at hrule
        cases hcategory : rule.category <;> rw [hcategory] at hrule <;> cases hrule <;> rfl
      · rw [if_neg hkept] at htoken
        cases htoken
  | next h =>
    generalize ho : Outcome.next _ _ _ = o at h
    cases h with
    | matched h => exact absurd h (hnone _ _)
    | unrecognized => cases ho
    | ended => cases ho

/-- Before a turn without a result, it is as after it. -/
theorem Bare.of_turn {kept' : String} {first' : Pos} (h : lexicon.Bare tabWidth k' kept' first')
    (hturn : lexicon.Turn tabWidth k kept first (.next k' kept' first')) :
    lexicon.Bare tabWidth k kept first := by
  intro result k'' hreads
  cases hreads with
  | finish hturn' => cases hturn.eq hturn'
  | next hturn' rest =>
    cases hturn.eq hturn'
    exact h result k'' rest

/-- A call before the end consists of turns. -/
theorem Call.reads_of_not_ended (h : lexicon.Call tabWidth k result k') (hended : k.ended = false) :
    lexicon.Reads tabWidth k "" k.caret.pos result k' := by
  cases h with
  | ended h =>
    rw [hended] at h
    cases h
  | reads _ hreads => exact hreads

end Lexicon

end Lexwright

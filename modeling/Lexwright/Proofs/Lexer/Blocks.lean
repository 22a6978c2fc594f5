import Lexwright.Proofs.Lexer.Reference

/-!
# `Lexwright.Proofs.Lexer.Blocks`: what a call takes from the text

A call goes from one place of the text to another, and what lies between them is a block. It
consists of what skipped matches drop, with the text that was kept before them, and of the text
that the call returns.

* `Lexicon.Keeps`, `Lexicon.Drops`: matches that return nothing.
* `Lexicon.Takes`: the two parts of a block.
* `Lexicon.Turn.of_finish`, `Lexicon.Turn.of_next`: what one turn takes.
* `Lexicon.Reads.takes`, `Lexicon.Call.takes`: what a run of turns takes, and a call.
-/

set_option autoImplicit false

namespace Lexwright

/-- The text that a result returns: that of a token, or the one that an error shows. -/
def Result.text? : Result → Option (List Char)
  | .ok none => some []
  | .ok (some token) => some token.text.toList
  | .error (.unrecognizedChar info) | .error (.endOfStream info) => some info.text.toList
  | .error _ => none

namespace Lexicon

variable {lexicon : Lexicon} {tabWidth : Nat} {k k' k₀ : Cursor} {kept kept' : String}
  {first first' : Pos} {result : Result}

/-- Matches of the category `more`, one after another. -/
inductive Keeps (lexicon : Lexicon) (tabWidth : Nat) : Cursor → Cursor → Prop where
  | refl (k : Cursor) : Keeps lexicon tabWidth k k
  | more {k k' : Cursor} {rule : Rule} {n : Nat} (before : Keeps lexicon tabWidth k k')
      (h : lexicon.Longest k' rule n) (hmore : rule.category = .more) :
      Keeps lexicon tabWidth k (lexicon.afterMatch tabWidth k' rule n)

/-- Matches of the category `skip`, each with the matches of the category `more` right before it,
whose text it drops. -/
inductive Drops (lexicon : Lexicon) (tabWidth : Nat) : Cursor → Cursor → Prop where
  | refl (k : Cursor) : Drops lexicon tabWidth k k
  | skip {k k' k'' : Cursor} {rule : Rule} {n : Nat} (hkeeps : lexicon.Keeps tabWidth k k')
      (h : lexicon.Longest k' rule n) (hskip : rule.category = .skip)
      (rest : Drops lexicon tabWidth (lexicon.afterMatch tabWidth k' rule n) k'') :
      Drops lexicon tabWidth k k''

/-- The block of a call: `dropped` goes to skipped matches, and `text` is returned. -/
structure Takes (lexicon : Lexicon) (tabWidth : Nat) (k : Cursor) (result : Result)
    (dropped text rest : List Char) : Prop where
  rest_eq : k.rest = dropped ++ text ++ rest
  text_eq : result.text? = some text
  drops : ∃ k', lexicon.Drops tabWidth k k' ∧ k'.rest = text ++ rest

/-- Without rules of the category `skip`, nothing is dropped. -/
theorem Drops.eq_of_noSkip (h : lexicon.Drops tabWidth k k')
    (hskip : ∀ x ∈ lexicon.numbered, x.2.category ≠ .skip) : k' = k := by
  cases h with
  | refl => rfl
  | skip _ hlongest hcategory =>
    obtain ⟨id, -, hrule⟩ := hlongest
    exact absurd hcategory (hskip _ (List.mem_of_getElem? hrule))

/-- Without Skip rules a call drops nothing. -/
theorem Takes.dropped_eq_nil {dropped text rest : List Char}
    (h : lexicon.Takes tabWidth k result dropped text rest)
    (hskip : ∀ x ∈ lexicon.numbered, x.2.category ≠ .skip) : dropped = [] := by
  obtain ⟨k', hdrops, hrest⟩ := h.drops
  rw [hdrops.eq_of_noSkip hskip, h.rest_eq, List.append_assoc] at hrest
  exact List.append_left_eq_self.1 hrest

/-! ### One turn -/

/-- The characters of a kept text with a word behind it. -/
theorem toList_append_ofList (kept : String) (w : List Char) :
    (kept ++ String.ofList w).toList = kept.toList ++ w := by
  rw [String.toList_append, String.toList_ofList]

/-- A match and what the call goes on with make up the rest of the text. -/
theorem take_append_rest_afterMatch (k : Cursor) (rule : Rule) (n : Nat) :
    k.rest.take n ++ (lexicon.afterMatch tabWidth k rule n).rest = k.rest :=
  List.take_append_drop n k.rest

/-- A match is returned with what was kept, or it is skipped or kept itself. -/
theorem exists_onMatch (k : Cursor) (kept : String) (first : Pos) (rule : Rule) (n : Nat) :
    (∃ token, lexicon.onMatch tabWidth k kept first rule n =
        .finish (.ok (some token)) (lexicon.afterMatch tabWidth k rule n) ∧
      token.text = kept ++ String.ofList (k.rest.take n)) ∨
    ∃ kept' first', lexicon.onMatch tabWidth k kept first rule n =
        .next (lexicon.afterMatch tabWidth k rule n) kept' first' ∧
      (rule.category = .skip ∧ kept' = "" ∨
        rule.category = .more ∧ kept' = kept ++ String.ofList (k.rest.take n)) := by
  unfold onMatch
  cases rule.category with
  | token => exact Or.inl ⟨_, rfl, rfl⟩
  | special => exact Or.inl ⟨_, rfl, rfl⟩
  | skip => exact Or.inr ⟨_, _, rfl, Or.inl ⟨rfl, rfl⟩⟩
  | more => exact Or.inr ⟨_, _, rfl, Or.inr ⟨rfl, rfl⟩⟩

/-- A turn with a result returns what was kept and what it moves past. Without a token or an error
there is nothing left, nor is there when the end is reached. -/
theorem Turn.of_finish (h : lexicon.Turn tabWidth k kept first (.finish result k')) :
    ∃ text, result.text? = some text ∧ kept.toList ++ k.rest = text ++ k'.rest ∧
      (result = .ok none → k'.rest = []) ∧ (k'.ended = true → k.ended = true ∨ k'.rest = []) := by
  generalize ho : Outcome.finish result k' = o at h
  cases h with
  | @matched rule n hlongest =>
    rcases @exists_onMatch lexicon tabWidth k kept first rule n with
      ⟨token, heq, htext⟩ | ⟨_, _, heq, -⟩
    · rw [heq] at ho
      cases ho
      refine ⟨_, rfl, ?_, fun h => (nomatch h), Or.inl⟩
      rw [htext, toList_append_ofList, List.append_assoc, take_append_rest_afterMatch]
    · rw [heq] at ho
      cases ho
  | @unrecognized c rest hnone hrest =>
    cases ho
    refine ⟨_, rfl, ?_, fun h => (nomatch h), Or.inl⟩
    show _ = (kept ++ String.singleton c).toList ++ k.rest.drop 1
    rw [String.singleton_eq_ofList, toList_append_ofList, hrest, List.append_assoc]
    rfl
  | @ended eof hrest heof =>
    unfold onEnd at ho
    cases ho
    show ∃ text, _ ∧ kept.toList ++ k.rest = text ++ k.rest ∧ _
    by_cases hkept : kept = ""
    · rw [if_pos hkept, hkept]
      refine ⟨[], ?_, rfl, fun _ => hrest, fun _ => Or.inr hrest⟩
      -- The token for the end of the input has no text.
      cases eof with
      | none => rfl
      | some rule =>
        show Result.text? (.ok (eofToken rule)) = some []
        unfold eofToken
        cases rule.category <;> rfl
    · rw [if_neg hkept]
      exact ⟨_, rfl, rfl, fun _ => hrest, fun _ => Or.inr hrest⟩

/-- A turn without a result is a match that is skipped or kept. -/
theorem Turn.of_next (h : lexicon.Turn tabWidth k kept first (.next k' kept' first')) :
    ∃ rule n, lexicon.Longest k rule n ∧ k' = lexicon.afterMatch tabWidth k rule n ∧
      (rule.category = .skip ∧ kept' = "" ∨
        rule.category = .more ∧ kept' = kept ++ String.ofList (k.rest.take n)) := by
  generalize ho : Outcome.next k' kept' first' = o at h
  cases h with
  | @matched rule n hlongest =>
    rcases @exists_onMatch lexicon tabWidth k kept first rule n with
      ⟨_, heq, -⟩ | ⟨_, _, heq, hcategory⟩
    · rw [heq] at ho
      cases ho
    · rw [heq] at ho
      cases ho
      exact ⟨rule, n, hlongest, rfl, hcategory⟩
  | unrecognized => cases ho
  | ended => cases ho

/-! ### Runs of turns -/

/-- What turns take from where the text that they keep began. The cursor `k₀` stands there, and
only matches of the category `more` lie between it and `k`. -/
theorem Reads.takes (h : lexicon.Reads tabWidth k kept first result k')
    (hkeeps : lexicon.Keeps tabWidth k₀ k) (hkept : k₀.rest = kept.toList ++ k.rest)
    (hended : k₀.ended = k.ended) :
    ∃ dropped text, lexicon.Takes tabWidth k₀ result dropped text k'.rest ∧
      (result = .ok none → k'.rest = []) ∧
      (k'.ended = true → k₀.ended = true ∨ k'.rest = []) := by
  -- A skipped match moves `k₀` behind itself, and the text of a kept one joins what was kept.
  induction h generalizing k₀ with
  | @finish k k' kept first result hturn =>
    obtain ⟨text, htext, hsplit, hnone, hend⟩ := hturn.of_finish
    rw [← hended] at hend
    exact ⟨[], text, ⟨hkept.trans hsplit, htext, k₀, .refl k₀, hkept.trans hsplit⟩, hnone, hend⟩
  | @next k k' k'' kept kept' first first' result hturn _ ih =>
    obtain ⟨rule, n, hlongest, rfl, ⟨hskip, rfl⟩ | ⟨hmore, rfl⟩⟩ := hturn.of_next
    · obtain ⟨dropped, text, htakes, hnone, hend⟩ := ih (.refl _) rfl rfl
      obtain ⟨middle, hdrops, hmiddle⟩ := htakes.drops
      refine ⟨kept.toList ++ k.rest.take n ++ dropped, text,
        ⟨?_, htakes.text_eq, middle, .skip hkeeps hlongest hskip hdrops, hmiddle⟩, hnone, ?_⟩
      · calc k₀.rest
          _ = kept.toList ++ (k.rest.take n ++ (lexicon.afterMatch tabWidth k rule n).rest) := by
            rw [take_append_rest_afterMatch, hkept]
          _ = kept.toList ++ k.rest.take n ++ dropped ++ text ++ k''.rest := by
            rw [htakes.rest_eq]
            simp only [List.append_assoc]
      · rw [hended]
        exact hend
    · refine ih (hkeeps.more hlongest hmore) ?_ hended
      rw [hkept, toList_append_ofList, List.append_assoc, take_append_rest_afterMatch]

/-- A call takes a block. When it gives nothing, and when it reaches the end, no text is left. -/
theorem Call.takes (h : lexicon.Call tabWidth k result k')
    (hended : k.ended = true → k.rest = []) :
    ∃ dropped text, lexicon.Takes tabWidth k result dropped text k'.rest ∧
      (result = .ok none → k'.rest = []) ∧ (k'.ended = true → k'.rest = []) := by
  cases h with
  | ended h =>
    exact ⟨[], [], ⟨rfl, rfl, k, .refl k, rfl⟩, fun _ => hended h, hended⟩
  | reads h hreads =>
    obtain ⟨dropped, text, htakes, hnone, hend⟩ := hreads.takes (.refl k) rfl rfl
    refine ⟨dropped, text, htakes, hnone, fun h' => (hend h').resolve_left ?_⟩
    rw [h]
    exact Bool.false_ne_true

/-- A call returns some text: none is about the stream or the lexical state. -/
theorem Call.exists_text (h : lexicon.Call tabWidth k result k') :
    ∃ text, result.text? = some text := by
  cases h with
  | ended => exact ⟨[], rfl⟩
  | reads _ hreads =>
    obtain ⟨_, text, htakes, -⟩ := hreads.takes (.refl k) rfl rfl
    exact ⟨text, htakes.text_eq⟩

end Lexicon

end Lexwright

import Lexwright.Stream.Basic

/-!
# `Lexwright.Proofs.Stream.Text`: streams that go back and forth in a text

* `CharStream.text`: the characters that a stream gives.
* `CharStream.Faithful`: a stream that reads the characters of a text one after another, and puts
  back what it has read.
* `CharStream.Steady`: the same for a stream that may fail behind its text.
-/

set_option autoImplicit false

namespace Lexwright

namespace CharStream

variable {σ : Type} [CharStream σ]

/-- The characters that a stream gives before its end or its failure. -/
def text (s : σ) : List Char :=
  match h : CharStream.read s with
  | (.ok (some c), rest) =>
    have := CharStream.remaining_read_lt h
    c :: text rest
  | (.ok none, _) => []
  | (.error _, _) => []
termination_by CharStream.remaining s

variable {s rest : σ} {c : Char}

/-- A stream that gives a character has a text that begins with it. -/
theorem text_of_read (h : CharStream.read s = (.ok (some c), rest)) : text s = c :: text rest := by
  rw [text]
  split
  · rename_i h'
    rw [h] at h'
    cases h'
    rfl
  · rename_i h'
    rw [h] at h'
    cases h'
  · rename_i h'
    rw [h] at h'
    cases h'

/-- A stream that has ended has no text. -/
theorem text_of_end (h : CharStream.read s = (.ok none, rest)) : text s = [] := by
  rw [text]
  split
  · rename_i h'
    rw [h] at h'
    cases h'
  · rfl
  · rfl

/-- A stream that fails has no text. -/
theorem text_of_error {e : StreamError} (h : CharStream.read s = (.error e, rest)) :
    text s = [] := by
  rw [text]
  split
  · rename_i h'
    rw [h] at h'
    cases h'
  · rfl
  · rfl

/-- A stream that has a text gives its first character. -/
theorem exists_read (h : text s ≠ []) :
    ∃ c rest, CharStream.read s = (.ok (some c), rest) ∧ text s = c :: text rest := by
  rcases hread : CharStream.read s with ⟨result, rest⟩
  cases result with
  | error e => exact absurd (text_of_error hread) h
  | ok found =>
    cases found with
    | none => exact absurd (text_of_end hread) h
    | some c => exact ⟨c, rest, rfl, text_of_read hread⟩

/-- A stream that goes back and forth in a text. `At s taken rest` says that `taken` was read since
the token began, the last character first, and that `rest` is left. -/
structure Faithful (At : σ → List Char → List Char → Prop) : Prop where
  read : ∀ {s : σ} {taken rest : List Char} {c : Char}, At s taken (c :: rest) →
    ∃ s', CharStream.read s = (.ok (some c), s') ∧ At s' (c :: taken) rest
  finish : ∀ {s : σ} {taken : List Char}, At s taken [] →
    ∃ s', CharStream.read s = (.ok none, s') ∧ At s' taken []
  backup : ∀ {s : σ} {back taken rest : List Char}, At s (back ++ taken) rest →
    ∃ s', CharStream.backup s back.length = .ok s' ∧ At s' taken (back.reverse ++ rest)
  beginToken : ∀ {s : σ} {taken rest : List Char}, At s taken rest →
    At (CharStream.beginToken s) [] rest
  image : ∀ {s : σ} {taken rest : List Char}, At s taken rest →
    CharStream.image s = String.ofList taken.reverse

/-- A stream that goes back and forth in a text, and always gives the same result behind it. -/
structure Steady (final : Except StreamError (Option Char)) (At : σ → List Char → List Char → Prop) :
    Prop where
  ne_some : ∀ c, final ≠ .ok (some c)
  read : ∀ {s : σ} {taken rest : List Char} {c : Char}, At s taken (c :: rest) →
    ∃ s', CharStream.read s = (.ok (some c), s') ∧ At s' (c :: taken) rest
  finish : ∀ {s : σ} {taken : List Char}, At s taken [] →
    ∃ s', CharStream.read s = (final, s') ∧ At s' taken []
  backup : ∀ {s : σ} {back taken rest : List Char}, At s (back ++ taken) rest →
    ∃ s', CharStream.backup s back.length = .ok s' ∧ At s' taken (back.reverse ++ rest)
  beginToken : ∀ {s : σ} {taken rest : List Char}, At s taken rest →
    At (CharStream.beginToken s) [] rest
  image : ∀ {s : σ} {taken rest : List Char}, At s taken rest →
    CharStream.image s = String.ofList taken.reverse

/-- Behind its text a faithful stream always ends. -/
theorem Faithful.steady {At : σ → List Char → List Char → Prop} (h : Faithful At) :
    Steady (.ok none) At :=
  ⟨fun _ h => (nomatch h), h.read, h.finish, h.backup, h.beginToken, h.image⟩

section Steady

variable {final result : Except StreamError (Option Char)}
  {At : σ → List Char → List Char → Prop} {s' : σ} {taken left : List Char}

/-- What a steady stream read tells what was left. -/
theorem Steady.exists_of_read (h : Steady final At) (hs : At s taken left)
    (hread : CharStream.read s = (.ok (some c), s')) :
    ∃ later, left = c :: later ∧ At s' (c :: taken) later := by
  cases left with
  | nil =>
    obtain ⟨_, hend, _⟩ := h.finish hs
    rw [hread] at hend
    exact absurd (congrArg Prod.fst hend).symm (h.ne_some c)
  | cons d later =>
    obtain ⟨_, hsome, hs'⟩ := h.read hs
    rw [hread] at hsome
    cases hsome
    exact ⟨later, rfl, hs'⟩

/-- Where a steady stream gives no character, nothing is left. -/
theorem Steady.eq_nil_of_stop (h : Steady final At) (hs : At s taken left)
    (hread : CharStream.read s = (result, s')) (hresult : ∀ c, result ≠ .ok (some c)) :
    left = [] ∧ result = final ∧ At s' taken [] := by
  cases left with
  | nil =>
    obtain ⟨_, hend, hs'⟩ := h.finish hs
    rw [hread] at hend
    cases hend
    exact ⟨rfl, rfl, hs'⟩
  | cons d later =>
    obtain ⟨_, hsome, _⟩ := h.read hs
    rw [hread] at hsome
    exact absurd (congrArg Prod.fst hsome) (hresult d)

/-- The end is read behind a text that ends. -/
theorem Steady.eq_nil_of_end (h : Steady final At) (hs : At s taken left)
    (hread : CharStream.read s = (.ok none, s')) :
    left = [] ∧ final = .ok none ∧ At s' taken [] := by
  obtain ⟨hnil, hfinal, hs'⟩ := h.eq_nil_of_stop hs hread fun _ h => nomatch h
  exact ⟨hnil, hfinal.symm, hs'⟩

/-- A failure is read behind a text that fails so. -/
theorem Steady.eq_nil_of_error {e : StreamError} (h : Steady final At) (hs : At s taken left)
    (hread : CharStream.read s = (.error e, s')) :
    left = [] ∧ final = .error e ∧ At s' taken [] := by
  obtain ⟨hnil, hfinal, hs'⟩ := h.eq_nil_of_stop hs hread fun _ h => nomatch h
  exact ⟨hnil, hfinal.symm, hs'⟩

/-- The text of a steady stream is what is left. -/
theorem Steady.text_eq (h : Steady final At) (hs : At s taken left) : text s = left := by
  induction left generalizing s taken with
  | nil =>
    obtain ⟨s', hread, _⟩ := h.finish hs
    cases final with
    | error e => exact text_of_error hread
    | ok found =>
      cases found with
      | none => exact text_of_end hread
      | some c => exact absurd rfl (h.ne_some c)
  | cons c later ih =>
    obtain ⟨s', hread, hs'⟩ := h.read hs
    rw [text_of_read hread, ih hs']

end Steady

/-- The text of a faithful stream is what is left. -/
theorem Faithful.text_eq {At : σ → List Char → List Char → Prop} (h : Faithful At)
    {taken rest : List Char} (hs : At s taken rest) : text s = rest :=
  h.steady.text_eq hs

end CharStream

end Lexwright

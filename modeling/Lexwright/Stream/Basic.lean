/-!
# `Lexwright.Stream.Basic`: characters that can be read again

A stream is read one character at a time. It keeps the characters read since the current token
began, so that a reader may go back to any of them. The laws say that reading uses the stream up:
they bound how much a lexer reads.
-/

set_option autoImplicit false

namespace Lexwright

/-- Why a stream gave no character, or did not go back. -/
inductive StreamError where
  /-- More characters were to be put back than were read in the current token. -/
  | noRoomToBackup (requested available : Nat)
  /-- The octets from this offset on encode no character. -/
  | encoding (offset : Nat)
  /-- The source failed. -/
  | source (message : String)
deriving DecidableEq, Repr

/-- The wording of the error. -/
def StreamError.display : StreamError → String
  | noRoomToBackup requested available =>
    s!"can't back up {requested} character(s), only {available} read in the current token"
  | encoding offset => s!"UTF-8 encoding error at offset {offset}"
  | source message => s!"I/O error: {message}"

/-- A source of characters for a lexer. -/
class CharStream (σ : Type) where
  /-- A bound on the number of characters that can still be read. -/
  remaining : σ → Nat
  /-- The next character, or nothing at the end of the stream. -/
  read : σ → Except StreamError (Option Char) × σ
  /-- Puts back the last characters read in the current token. -/
  backup : σ → Nat → Except StreamError σ
  /-- Begins a token at the next character. -/
  beginToken : σ → σ
  /-- The characters read since the token began. -/
  image : σ → String
  remaining_read_lt : ∀ {s s' : σ} {c : Char},
    read s = (.ok (some c), s') → remaining s' < remaining s
  remaining_read_le : ∀ s : σ, remaining (read s).2 ≤ remaining s
  remaining_backup_le : ∀ {s s' : σ} {n : Nat},
    backup s n = .ok s' → remaining s' ≤ remaining s + n
  remaining_beginToken_le : ∀ s : σ, remaining (beginToken s) ≤ remaining s

/-- A stream that refuses to put back more than `limit` characters at a time, if there is a
limit. -/
structure Bounded (σ : Type) where
  stream : σ
  limit : Option Nat

namespace Bounded

variable {σ : Type} [CharStream σ]

/-- Puts back characters unless there are too many of them. -/
def backup (b : Bounded σ) (n : Nat) : Except StreamError (Bounded σ) :=
  match b.limit with
  | some limit =>
    if limit < n then .error (.noRoomToBackup n limit)
    else (CharStream.backup b.stream n).map ({ b with stream := · })
  | none => (CharStream.backup b.stream n).map ({ b with stream := · })

instance : CharStream (Bounded σ) where
  remaining b := CharStream.remaining b.stream
  read b := ((CharStream.read b.stream).1, { b with stream := (CharStream.read b.stream).2 })
  backup := backup
  beginToken b := { b with stream := CharStream.beginToken b.stream }
  image b := CharStream.image b.stream
  remaining_read_lt {s s' c} h := by
    obtain ⟨h₁, rfl⟩ := Prod.mk.inj h
    exact CharStream.remaining_read_lt (Prod.ext h₁ rfl)
  remaining_read_le s := CharStream.remaining_read_le s.stream
  remaining_backup_le {s s' n} h := by
    have hMap : (CharStream.backup s.stream n).map (fun t => { s with stream := t }) = .ok s' := by
      unfold backup at h
      split at h
      · split at h
        · cases h
        · exact h
      · exact h
    cases hBack : CharStream.backup s.stream n with
    | error e => rw [hBack] at hMap; cases hMap
    | ok t =>
      rw [hBack] at hMap
      cases hMap
      exact CharStream.remaining_backup_le hBack
  remaining_beginToken_le s := CharStream.remaining_beginToken_le s.stream

end Bounded

end Lexwright

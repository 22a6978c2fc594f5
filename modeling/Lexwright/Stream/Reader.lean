import Lexwright.Stream.Basic
import Lexwright.Text.Utf8

/-!
# `Lexwright.Stream.Reader`: characters decoded from octets

A reader decodes the octets of a source one character at a time. Once decoding or the source has
failed, each later read fails in the same way. Characters that were put back are read again
first, whatever became of the source.

A read of a source may be interrupted before it has an octet. An interruption is not the end of the
source and not a failure of it: the read may be made again. The reader makes it again inside a
character (`Source.readExactly`), but not where it asks for the lead octet (`Source.decode`), and
there it takes the interruption for a failure.
-/

set_option autoImplicit false

namespace Lexwright

open Text

/-- What follows the octets of a source. After its end and after a failure, each further read meets
the same again. A failure may say of itself that it stands for an end that came too early. An
interruption is met by one read, and behind it the source goes on. It goes on at some time: like a
read that never returns, a source that is interrupted for ever gives nothing to speak of. -/
inductive SourceEnd where
  | closed
  | failed (early : Bool) (message : String)
  | interrupted (message : String) (octets : List UInt8) (ending : SourceEnd)
deriving DecidableEq, Repr

/-- Number of octets that a source serves behind its interruptions. -/
def SourceEnd.size : SourceEnd → Nat
  | closed => 0
  | failed _ _ => 0
  | interrupted _ octets ending => octets.length + ending.size

/-- The octets that a source still serves, and what follows them. -/
structure Source where
  octets : List UInt8
  ending : SourceEnd := .closed
deriving DecidableEq, Repr

/-- Why a source has fewer octets than it was asked for. -/
inductive Shortfall where
  /-- The source has ended, or has failed and says that it ended too early. -/
  | ended
  /-- The source has failed. -/
  | failed (message : String)
deriving DecidableEq, Repr

/-- The error for a character whose lead octet is at `offset` and whose other octets are not all
there. -/
def Shortfall.error (offset : Nat) : Shortfall → StreamError
  | ended => .encoding offset
  | failed message => .source message

namespace Source

/-- The octets of a text. -/
def ofString (text : String) : Source := ⟨text.toUTF8.data.toList, .closed⟩

/-- The source that fails after `n` octets. -/
def failAfter (s : Source) (n : Nat) (early : Bool) (message : String) : Source :=
  ⟨s.octets.take n, .failed early message⟩

/-- Number of octets that the source still serves. -/
def size (s : Source) : Nat := s.octets.length + s.ending.size

/-- The next `n` octets, and the rest of the source. A read that is interrupted is made again, as
often as that happens. -/
def readExactly (n : Nat) (octets : List UInt8) (ending : SourceEnd) :
    Except Shortfall (List UInt8 × Source) :=
  if n ≤ octets.length then .ok (octets.take n, ⟨octets.drop n, ending⟩)
  else
    match ending with
    | .closed => .error .ended
    | .failed true _ => .error .ended
    | .failed false message => .error (.failed message)
    | .interrupted _ later ending => readExactly n (octets ++ later) ending
termination_by structural ending

section ReadExactly

variable {n : Nat} {octets following : List UInt8} {ending : SourceEnd} {rest : Source}

/-- No more is read of the source than was asked for. -/
theorem readExactly_of_le (h : n ≤ octets.length) :
    readExactly n octets ending = .ok (octets.take n, ⟨octets.drop n, ending⟩) := by
  unfold readExactly
  exact if_pos h

/-- A source that ends before all the octets were served has no more of them. -/
theorem readExactly_closed (h : octets.length < n) :
    readExactly n octets .closed = .error .ended := by
  unfold readExactly
  exact if_neg (Nat.not_le_of_lt h)

/-- A failure before all the octets were served is reported, unless it stands for an early end. -/
theorem readExactly_failed (h : octets.length < n) (early : Bool) (message : String) :
    readExactly n octets (.failed early message) =
      .error (if early then .ended else .failed message) := by
  unfold readExactly
  rw [if_neg (Nat.not_le_of_lt h)]
  cases early <;> rfl

/-- An interruption before all the octets were served is passed over. -/
theorem readExactly_interrupted (h : octets.length < n) (message : String) (later : List UInt8) :
    readExactly n octets (.interrupted message later ending) =
      readExactly n (octets ++ later) ending := by
  rw [readExactly, if_neg (Nat.not_le_of_lt h)]

/-- Octets that are dropped are no longer served. -/
theorem size_drop (h : n ≤ octets.length) :
    (⟨octets.drop n, ending⟩ : Source).size + n = octets.length + ending.size := by
  simp only [size, List.length_drop]
  omega

/-- Octets that were asked for were all served, and the source has lost as many. -/
theorem size_of_readExactly (h : readExactly n octets ending = .ok (following, rest)) :
    rest.size + n = octets.length + ending.size := by
  induction ending generalizing octets with
  | closed | failed =>
    by_cases hLe : n ≤ octets.length
    · rw [readExactly_of_le hLe] at h
      cases h
      exact size_drop hLe
    · simp only [readExactly_closed, readExactly_failed, Nat.lt_of_not_le hLe] at h
      cases h
  | interrupted message later ending ih =>
    by_cases hLe : n ≤ octets.length
    · rw [readExactly_of_le hLe] at h
      cases h
      exact size_drop hLe
    · rw [readExactly_interrupted (Nat.lt_of_not_le hLe)] at h
      have hSize := ih h
      rw [List.length_append] at hSize
      rw [hSize, SourceEnd.size, Nat.add_assoc]

end ReadExactly

/-- The next character of a source whose next octet is at `offset`, or nothing at its end, and the
rest of the source. -/
def decode (s : Source) (offset : Nat) : Except StreamError (Option (Char × Source)) :=
  match s.octets with
  | [] =>
    match s.ending with
    | .closed => .ok none
    | .failed _ message => .error (.source message)
    -- the read of a lead octet is not made again
    | .interrupted message _ _ => .error (.source message)
  | lead :: rest =>
    let length := leadLength lead
    if length = 0 then .error (.encoding offset)
    else
      match readExactly (length - 1) rest s.ending with
      | .error shortfall => .error (shortfall.error offset)
      | .ok (following, later) =>
        match decodeOctets? (lead :: following) with
        | some c => .ok (some (c, later))
        | none => .error (.encoding offset)

/-- A character takes at least one octet. -/
theorem size_of_decode {s rest : Source} {offset : Nat} {c : Char}
    (h : s.decode offset = .ok (some (c, rest))) : rest.size < s.size := by
  unfold decode at h
  split at h
  · split at h <;> cases h
  · rename_i lead following hOctets
    simp only at h
    split at h
    · cases h
    · split at h
      · cases h
      · rename_i hRead
        split at h
        · cases h
          have := size_of_readExactly hRead
          simp only [size, hOctets, List.length_cons] at this ⊢
          omega
        · cases h

end Source

/-- Whether the source can still be read. -/
inductive ReaderStatus where
  | reading
  | failed (error : StreamError)
  | closed
deriving DecidableEq, Repr

/-- A reader: the rest of its source, how far it stands from the start of the source, and the
characters around the place where it stands. -/
structure Reader where
  source : Source
  offset : Nat := 0
  status : ReaderStatus := .reading
  /-- The characters read since the token began, the last one first. -/
  taken : List Char := []
  /-- The characters that were put back, the next one first. -/
  ahead : List Char := []
deriving DecidableEq, Repr

namespace Reader

/-- Whether there may be more to read. -/
def isReading (r : Reader) : Bool := r.status = .reading || !r.ahead.isEmpty

/-- Moves past a character that is not among those put back. -/
def take (r : Reader) (c : Char) (rest : Source) : Reader :=
  { r with source := rest, offset := r.offset + c.utf8Size, taken := c :: r.taken }

/-- Reads from the source. -/
def readSource (r : Reader) : Except StreamError (Option Char) × Reader :=
  match r.status with
  | .failed error => (.error error, r)
  | .closed => (.ok none, r)
  | .reading =>
    match r.source.decode r.offset with
    | .error error => (.error error, { r with status := .failed error })
    | .ok none => (.ok none, { r with status := .closed })
    | .ok (some (c, rest)) => (.ok (some c), r.take c rest)

/-- Reads the next character: one that was put back, or one of the source. -/
def read (r : Reader) : Except StreamError (Option Char) × Reader :=
  match r.ahead with
  | c :: ahead =>
    (.ok (some c),
      { r with ahead, offset := r.offset + c.utf8Size, taken := c :: r.taken })
  | [] => r.readSource

/-- Puts back the last `n` characters read in the current token. -/
def backup (r : Reader) (n : Nat) : Except StreamError Reader :=
  if r.taken.length < n then .error (.noRoomToBackup n r.taken.length)
  else
    let back := r.taken.take n
    .ok { r with
      taken := r.taken.drop n
      ahead := back.reverse ++ r.ahead
      offset := r.offset - back.foldr (fun c n => c.utf8Size + n) 0 }

/-- Begins a token at the next character. -/
def beginToken (r : Reader) : Reader := { r with taken := [] }

/-- The characters read since the token began. -/
def image (r : Reader) : String := String.ofList r.taken.reverse

/-- Each character takes at least one octet. -/
def remaining (r : Reader) : Nat := r.ahead.length + r.source.size

/-- A character that is read is not left any more. -/
theorem remaining_read_lt {r r' : Reader} {c : Char} (h : r.read = (.ok (some c), r')) :
    r'.remaining < r.remaining := by
  unfold read at h
  split at h
  · rename_i d ahead hAhead
    cases h
    simp [remaining, hAhead]
  · rename_i hAhead
    unfold readSource at h
    split at h
    · cases h
    · cases h
    · split at h
      · cases h
      · cases h
      · rename_i hDecode
        cases h
        have := Source.size_of_decode hDecode
        simp only [remaining, take, hAhead]
        omega

/-- A read never leaves more than there was. -/
theorem remaining_read_le (r : Reader) : r.read.2.remaining ≤ r.remaining := by
  rcases h : r.read with ⟨result, r'⟩
  cases result with
  | ok found =>
    cases found with
    | some c => exact Nat.le_of_lt (remaining_read_lt h)
    | none =>
      unfold read at h
      split at h
      · cases h
      · unfold readSource at h
        split at h
        · cases h
        · cases h; exact Nat.le_refl _
        · split at h <;> cases h
          exact Nat.le_refl _
  | error e =>
    unfold read at h
    split at h
    · cases h
    · unfold readSource at h
      split at h
      · cases h; exact Nat.le_refl _
      · cases h
      · split at h <;> cases h
        exact Nat.le_refl _

/-- Putting back `n` characters leaves at most `n` more. -/
theorem remaining_backup_le {r r' : Reader} {n : Nat} (h : r.backup n = .ok r') :
    r'.remaining ≤ r.remaining + n := by
  unfold backup at h
  split at h
  · cases h
  · cases h
    simp only [remaining, List.length_append, List.length_reverse, List.length_take]
    omega

instance : CharStream Reader where
  remaining := remaining
  read := read
  backup := backup
  beginToken := beginToken
  image := image
  remaining_read_lt := remaining_read_lt
  remaining_read_le := remaining_read_le
  remaining_backup_le := remaining_backup_le
  remaining_beginToken_le _ := Nat.le_refl _

end Reader

end Lexwright

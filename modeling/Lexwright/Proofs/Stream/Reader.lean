import Lexwright.Proofs.Stream.Text
import Lexwright.Proofs.Text.Utf8
import Lexwright.Stream.Reader

/-!
# `Lexwright.Proofs.Stream.Reader`: a reader goes through the text that its octets encode

* `Source.octets_ofString`, `Source.decode_encoded`: the octets of a text are decoded one character
  after another.
* `Reader.At`: where a reader of a text stands. `Reader.faithful` says that reading and going back
  move it as they should.
-/

set_option autoImplicit false

namespace Lexwright

open Text

namespace Source

variable {s : Source} {offset : Nat} {c : Char} {rest : List UInt8}

/-- The source of a text serves the octets of its characters. -/
theorem octets_ofString (text : String) :
    (ofString text).octets = text.toList.flatMap String.utf8EncodeChar := by
  show text.toByteArray.data.toList = _
  rw [← String.utf8Encode_toList]
  unfold List.utf8Encode
  rw [List.data_toByteArray]

/-- Octets that begin with those of a character give the character. -/
theorem decode_encoded (hs : s.octets = String.utf8EncodeChar c ++ rest) :
    s.decode offset = .ok (some (c, { s with octets := rest })) := by
  obtain ⟨lead, following, hencode, hlength, hdecode⟩ := exists_encoding c
  -- The decoder takes as many octets as the lead octet announces: those of `c` and no more.
  have hread : readExactly (leadLength lead - 1) (following ++ rest) s.ending =
      .ok (following, { s with octets := rest }) := by
    rw [hlength, Nat.add_sub_cancel, readExactly_of_le (by rw [List.length_append]; omega),
      List.take_left, List.drop_left]
  unfold decode
  rw [hs, hencode, List.cons_append]
  simp only [hread, hdecode]
  rw [if_neg (by omega)]

/-- A source without octets that has ended gives nothing. -/
theorem decode_closed (hs : s.octets = []) (hending : s.ending = .closed) :
    s.decode offset = .ok none := by
  unfold decode
  rw [hs]
  simp only [hending]

end Source

namespace Reader

variable {r : Reader} {taken rest : List Char} {c : Char}

/-- The reader has taken `taken` since the token began, the last character first, and `rest` is
left: characters that were put back, and then what the octets of the source encode. -/
structure At (r : Reader) (taken rest : List Char) : Prop where
  taken_eq : r.taken = taken
  later : ∃ later, rest = r.ahead ++ later ∧ r.source.octets = later.flatMap String.utf8EncodeChar
    ∧ (r.status = .reading ∨ r.status = .closed ∧ later = [])
  ending : r.source.ending = .closed

/-- A reader of a text stands at its start. -/
theorem at_ofString (text : String) : At { source := .ofString text } [] text.toList :=
  ⟨rfl, ⟨text.toList, rfl, Source.octets_ofString text, Or.inl rfl⟩, rfl⟩

/-- Where a character is left, it is read, and the reader stands behind it. -/
theorem At.read (h : r.At taken (c :: rest)) :
    ∃ r', r.read = (.ok (some c), r') ∧ r'.At (c :: taken) rest := by
  obtain ⟨rfl, ⟨later, hrest, hoctets, hstatus⟩, hending⟩ := h
  unfold Reader.read
  cases hahead : r.ahead with
  | cons d ahead =>
    -- A character that was put back is read again, and the source is left alone.
    rw [hahead, List.cons_append] at hrest
    cases hrest
    exact ⟨_, rfl, rfl, ⟨later, rfl, hoctets, hstatus⟩, hending⟩
  | nil =>
    rw [hahead, List.nil_append] at hrest
    subst hrest
    rcases hstatus with hstatus | ⟨_, hnil⟩
    · unfold readSource
      rw [hstatus]
      simp only
      rw [Source.decode_encoded hoctets]
      refine ⟨_, rfl, rfl, ⟨rest, ?_, rfl, Or.inl hstatus⟩, hending⟩
      rw [show (r.take c _).ahead = r.ahead from rfl, hahead]
      rfl
    · -- A closed source has nothing left, but a character is left.
      cases hnil

/-- Where no character is left, the end is read, and the reader stands where it stood. -/
theorem At.finish (h : r.At taken []) :
    ∃ r', r.read = (.ok none, r') ∧ r'.At taken [] := by
  obtain ⟨rfl, ⟨later, hrest, hoctets, hstatus⟩, hending⟩ := h
  -- Nothing is left, so nothing was put back and the source has no octets.
  obtain ⟨hahead, rfl⟩ := List.append_eq_nil_iff.1 hrest.symm
  unfold Reader.read readSource
  rw [hahead]
  rcases hstatus with hstatus | ⟨hstatus, _⟩
  · rw [hstatus]
    simp only
    rw [Source.decode_closed hoctets hending]
    exact ⟨_, rfl, rfl, ⟨[], rfl, hoctets, Or.inr ⟨rfl, rfl⟩⟩, hending⟩
  · rw [hstatus]
    exact ⟨r, rfl, rfl, ⟨[], hrest, hoctets, Or.inr ⟨hstatus, rfl⟩⟩, hending⟩

/-- Characters of the token go back to those that are left. -/
theorem At.backup {back : List Char} (h : r.At (back ++ taken) rest) :
    ∃ r', r.backup back.length = .ok r' ∧ r'.At taken (back.reverse ++ rest) := by
  obtain ⟨htaken, ⟨later, rfl, hoctets, hstatus⟩, hending⟩ := h
  -- The token holds at least the characters that go back.
  have hroom : ¬r.taken.length < back.length := by
    rw [htaken, List.length_append]
    omega
  unfold Reader.backup
  rw [if_neg hroom]
  refine ⟨_, rfl, ?_, ⟨later, ?_, hoctets, hstatus⟩, hending⟩
  · show r.taken.drop back.length = taken
    rw [htaken, List.drop_left]
  · show back.reverse ++ (r.ahead ++ later) = (r.taken.take back.length).reverse ++ r.ahead ++ later
    rw [htaken, List.take_left, List.append_assoc]

/-- Readers of texts go back and forth in them. -/
theorem faithful : CharStream.Faithful At where
  read := At.read
  finish := At.finish
  backup := At.backup
  beginToken h := ⟨rfl, h.later, h.ending⟩
  image h := by
    show String.ofList _ = _
    rw [h.taken_eq]

end Reader

end Lexwright

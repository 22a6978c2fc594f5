import Lexwright.Proofs.Stream.Decode

/-!
# `Lexwright.Proofs.Stream.Offset`: a reader counts the octets that it has gone through

Characters that are put back are counted down again, so the offset always is that of the next
character of the text.

* `Reader.Between`: a reader between two parts of a text, seen from its offset and from the octets
  that it has still to read.
* `Reader.Within`: where a reader stands in the whole of its text. `Reader.faithful_within` says
  that reading and going back move it as they should.
-/

set_option autoImplicit false

namespace Lexwright.Reader

open Text

variable {r r' : Reader} {n : Nat} {c : Char} {text before taken rest : List Char}

/-! ### What a read and a step back do to the offset -/

/-- A character moves the offset by the octets that it takes, whether the source gave it or it was
put back. -/
theorem offset_of_read (h : r.read = (.ok (some c), r')) : r'.offset = r.offset + c.utf8Size := by
  unfold Reader.read at h
  split at h
  · cases h
    rfl
  · unfold readSource at h
    split at h
    · cases h
    · cases h
    · split at h
      · cases h
      · cases h
      · cases h
        rfl

/-- At the end the offset stays where it is. -/
theorem offset_of_end (h : r.read = (.ok none, r')) : r'.offset = r.offset := by
  unfold Reader.read at h
  split at h
  · cases h
  · unfold readSource at h
    split at h
    · cases h
    · cases h
      rfl
    · split at h
      · cases h
      · cases h
        rfl
      · cases h

/-- The octets that go back are those of the characters that go back. -/
theorem foldr_utf8Size (w : List Char) :
    w.foldr (fun c n => c.utf8Size + n) 0 = (encode w.reverse).length := by
  induction w with
  | nil => rfl
  | cons c w ih =>
    rw [List.foldr_cons, ih, List.reverse_cons, encode_append, List.length_append, Nat.add_comm,
      encode_cons, encode_nil, List.append_nil, String.length_utf8EncodeChar]

/-- A step back moves the offset by the octets of the characters that go back. -/
theorem offset_of_backup (h : r.backup n = .ok r') :
    r'.offset = r.offset - (encode (r.taken.take n).reverse).length := by
  unfold Reader.backup at h
  split at h
  · cases h
  · cases h
    rw [← foldr_utf8Size]

/-! ### Readers and their texts -/

/-- The octets that are still to be read: those of the characters that were put back, and those of
the source. -/
def left (r : Reader) : List UInt8 := encode r.ahead ++ r.source.octets

/-- The reader has gone through the first part of a text, and the second part is left. -/
structure Between (r : Reader) (before rest : List Char) : Prop where
  offset_eq : r.offset = (encode before).length
  left_eq : r.left = encode rest

/-- The reader stands where `At` says, and its offset is that of this place in the text. -/
structure Within (text : List Char) (r : Reader) (taken rest : List Char) : Prop where
  stands : r.At taken rest
  place : ∃ before, text = before ++ taken.reverse ++ rest ∧
    r.offset = (encode (before ++ taken.reverse)).length

/-- The octets that are left are those of the characters that are left. -/
theorem At.left_eq (h : r.At taken rest) : r.left = encode rest := by
  obtain ⟨later, hrest, hoctets, -⟩ := h.later
  rw [hrest, encode_append, left, hoctets]
  rfl

/-- Where a reader stands, it stands between what it has gone through and what is left. -/
theorem Within.between (h : Within text r taken rest) :
    ∃ before, text = before ++ rest ∧ r.Between before rest := by
  obtain ⟨before, htext, hoffset⟩ := h.place
  exact ⟨before ++ taken.reverse, htext, hoffset, h.stands.left_eq⟩

/-- A reader of a text starts at its first character. -/
theorem within_ofString (text : String) :
    Within text.toList { source := .ofString text } [] text.toList :=
  ⟨at_ofString text, [], rfl, rfl⟩

/-- A read takes the next character, and the offset follows it. -/
theorem Within.read (h : Within text r taken (c :: rest)) :
    ∃ r', r.read = (.ok (some c), r') ∧ Within text r' (c :: taken) rest := by
  obtain ⟨before, htext, hoffset⟩ := h.place
  obtain ⟨r', hread, hat⟩ := h.stands.read
  refine ⟨r', hread, hat, before, ?_, ?_⟩
  · rw [htext, List.reverse_cons]
    simp
  · rw [offset_of_read hread, hoffset, List.reverse_cons, ← List.append_assoc,
      @encode_append (before ++ taken.reverse) [c], List.length_append, encode_cons, encode_nil,
      List.append_nil, String.length_utf8EncodeChar]

/-- At the end of the text nothing moves. -/
theorem Within.finish (h : Within text r taken []) :
    ∃ r', r.read = (.ok none, r') ∧ Within text r' taken [] := by
  obtain ⟨before, htext, hoffset⟩ := h.place
  obtain ⟨r', hread, hat⟩ := h.stands.finish
  exact ⟨r', hread, hat, before, htext, (offset_of_end hread).trans hoffset⟩

/-- Characters of the token go back, and the offset with them. -/
theorem Within.backup {back : List Char} (h : Within text r (back ++ taken) rest) :
    ∃ r', r.backup back.length = .ok r' ∧ Within text r' taken (back.reverse ++ rest) := by
  obtain ⟨before, htext, hoffset⟩ := h.place
  obtain ⟨r', hbackup, hat⟩ := h.stands.backup
  refine ⟨r', hbackup, hat, before, ?_, ?_⟩
  · rw [htext, List.reverse_append]
    simp
  · -- The octets of the characters that go back are the last of those counted.
    rw [offset_of_backup hbackup, hoffset, h.stands.taken_eq, List.take_left, List.reverse_append,
      ← List.append_assoc, @encode_append (before ++ taken.reverse) back.reverse,
      List.length_append, Nat.add_sub_cancel]

/-- Readers of texts go back and forth in them, and their offsets with them. -/
theorem faithful_within (text : List Char) : CharStream.Faithful (Within text) where
  read := Within.read
  finish := Within.finish
  backup := Within.backup
  beginToken {r taken rest} h := by
    obtain ⟨before, htext, hoffset⟩ := h.place
    refine ⟨faithful.beginToken h.stands, before ++ taken.reverse, ?_, ?_⟩
    · rw [htext, List.reverse_nil, List.append_nil]
    · rw [List.reverse_nil, List.append_nil]
      exact hoffset
  image h := faithful.image h.stands

end Lexwright.Reader

import Lexwright.Text.Utf8

/-!
# `Lexwright.Proofs.Text.Utf8`: decoding undoes encoding, and encoding undoes decoding

`exists_encoding` says what the octets of a character are to the decoder: a lead octet that
announces how many there are, and octets that decode to the character. The cases are those of the
encoder, one for each number of octets.

`encodeChar_of_decodeOctets?` is the other direction: only the encoding of a character decodes to
it, so longer forms than necessary, surrogates and codepoints beyond the last one do not decode.
`announces_iff` says that the table of lengths is that of the encodings.
-/

set_option autoImplicit false

namespace Lexwright.Text

variable {n : Nat}

/-! ### Octets -/

/-- Octets compare like the numbers that they hold. -/
theorem octet_between (low high : Nat) (h : low ≤ n) (h' : n < high) (hhigh : high < 256) :
    UInt8.ofNat low ≤ UInt8.ofNat n ∧ UInt8.ofNat n < UInt8.ofNat high := by
  rw [UInt8.le_iff_toNat_le, UInt8.lt_iff_toNat_lt,
    UInt8.toNat_ofNat_of_lt' (by omega : low < 256), UInt8.toNat_ofNat_of_lt' (by omega : n < 256),
    UInt8.toNat_ofNat_of_lt' hhigh]
  exact ⟨h, h'⟩

/-- Six bits are found again in their octet. -/
theorem continuation?_octet (h : n < 64) : continuation? (UInt8.ofNat (n + 0x80)) = some n := by
  unfold continuation?
  have hbetween : (0x80 : UInt8) ≤ UInt8.ofNat (n + 0x80) ∧ UInt8.ofNat (n + 0x80) < 0xc0 :=
    octet_between 0x80 0xc0 (by omega) (by omega) (by omega)
  rw [if_pos hbetween, UInt8.toNat_ofNat_of_lt' (show _ < 256 by omega)]
  exact congrArg some (Nat.add_sub_cancel n 0x80)

/-- The number of octets that a lead octet announces. -/
theorem leadLength_octet {length : Nat} (h : n < 256)
    (hlength : (n < 0x80 ∧ length = 1) ∨ (0xc2 ≤ n ∧ n < 0xe0 ∧ length = 2) ∨
      (0xe0 ≤ n ∧ n < 0xf0 ∧ length = 3) ∨ (0xf0 ≤ n ∧ n < 0xf5 ∧ length = 4)) :
    leadLength (UInt8.ofNat n) = length := by
  unfold leadLength
  simp only [UInt8.lt_iff_toNat_lt, UInt8.toNat_ofNat_of_lt' h]
  rw [show (0x80 : UInt8).toNat = 0x80 from rfl, show (0xc2 : UInt8).toNat = 0xc2 from rfl,
    show (0xe0 : UInt8).toNat = 0xe0 from rfl, show (0xf0 : UInt8).toNat = 0xf0 from rfl,
    show (0xf5 : UInt8).toNat = 0xf5 from rfl]
  grind

/-! ### Decoding -/

variable {a b d e lead : UInt8} {x y z : Nat}

/-- One octet is its codepoint. -/
theorem decodeOctets?_one (h : a < 0x80) : decodeOctets? [a] = charOfCode? a.toNat := if_pos h

/-- Two octets give eleven bits. -/
theorem decodeOctets?_two (h : 0xc0 ≤ a ∧ a < 0xe0) (hb : continuation? b = some x) :
    decodeOctets? [a, b] = charFrom? 0x80 ((a.toNat - 0xc0) * 64 + x) := by
  show (if 0xc0 ≤ a ∧ a < 0xe0 then _ else none) = _
  rw [if_pos h, hb]
  rfl

/-- Three octets give sixteen bits. -/
theorem decodeOctets?_three (h : 0xe0 ≤ a ∧ a < 0xf0) (hb : continuation? b = some x)
    (hd : continuation? d = some y) :
    decodeOctets? [a, b, d] = charFrom? 0x800 (((a.toNat - 0xe0) * 64 + x) * 64 + y) := by
  show (if 0xe0 ≤ a ∧ a < 0xf0 then _ else none) = _
  rw [if_pos h, hb, hd]
  rfl

/-- Four octets give twenty-one bits. -/
theorem decodeOctets?_four (h : 0xf0 ≤ a ∧ a < 0xf8) (hb : continuation? b = some x)
    (hd : continuation? d = some y) (he : continuation? e = some z) :
    decodeOctets? [a, b, d, e] =
      charFrom? 0x10000 ((((a.toNat - 0xf0) * 64 + x) * 64 + y) * 64 + z) := by
  show (if 0xf0 ≤ a ∧ a < 0xf8 then _ else none) = _
  rw [if_pos h, hb, hd, he]
  rfl

/-- The codepoint of a character gives the character, if it is not too low for its length. -/
theorem charFrom?_eq {least : Nat} {c : Char} (h : least ≤ c.toNat) (hn : n = c.toNat) :
    charFrom? least n = some c := by
  unfold charFrom?
  rw [hn, if_pos h, charOfCode?_toNat]

/-- The octets of a character: the lead octet announces their number, and they decode to the
character. -/
theorem exists_encoding (c : Char) : ∃ lead following,
    String.utf8EncodeChar c = lead :: following ∧ leadLength lead = following.length + 1 ∧
      decodeOctets? (lead :: following) = some c := by
  have hvalid : c.toNat ≤ 0x10ffff := by
    have : c.toNat.isValidChar := c.valid
    rcases this with h | h <;> omega
  unfold String.utf8EncodeChar
  rw [show c.val.toNat = c.toNat from rfl]
  simp only
  -- The bounds are those of the encoder. They also exclude longer forms than necessary.
  by_cases hone : c.toNat ≤ 0x7f
  · refine ⟨_, [], if_pos hone, leadLength_octet (by omega) (Or.inl ⟨by omega, rfl⟩), ?_⟩
    have hlow : UInt8.ofNat c.toNat < 0x80 :=
      (octet_between 0 0x80 (Nat.zero_le _) (by omega) (by omega)).2
    rw [decodeOctets?_one hlow, UInt8.toNat_ofNat_of_lt' (show _ < 256 by omega),
      charOfCode?_toNat]
  by_cases htwo : c.toNat ≤ 0x7ff
  · refine ⟨_, _, by rw [if_neg hone, if_pos htwo], leadLength_octet (by omega)
      (Or.inr (Or.inl ⟨by omega, by omega, rfl⟩)), ?_⟩
    rw [decodeOctets?_two (octet_between 0xc0 0xe0 (by omega) (by omega) (by omega))
      (continuation?_octet (by omega)), UInt8.toNat_ofNat_of_lt' (show _ < 256 by omega)]
    exact charFrom?_eq (by omega) (by omega)
  by_cases hthree : c.toNat ≤ 0xffff
  · refine ⟨_, _, by rw [if_neg hone, if_neg htwo, if_pos hthree], leadLength_octet (by omega)
      (Or.inr (Or.inr (Or.inl ⟨by omega, by omega, rfl⟩))), ?_⟩
    rw [decodeOctets?_three (octet_between 0xe0 0xf0 (by omega) (by omega) (by omega))
      (continuation?_octet (by omega)) (continuation?_octet (by omega)),
      UInt8.toNat_ofNat_of_lt' (show _ < 256 by omega)]
    exact charFrom?_eq (by omega) (by omega)
  · refine ⟨_, _, by rw [if_neg hone, if_neg htwo, if_neg hthree], leadLength_octet (by omega)
      (Or.inr (Or.inr (Or.inr ⟨by omega, by omega, rfl⟩))), ?_⟩
    rw [decodeOctets?_four (octet_between 0xf0 0xf8 (by omega) (by omega) (by omega))
      (continuation?_octet (by omega)) (continuation?_octet (by omega))
      (continuation?_octet (by omega)), UInt8.toNat_ofNat_of_lt' (show _ < 256 by omega)]
    exact charFrom?_eq (by omega) (by omega)

/-! ### What decodes is an encoding -/

/-- The bounds of an octet, as numbers. -/
theorem toNat_between {low high : UInt8} (h : low ≤ a ∧ a < high) :
    low.toNat ≤ a.toNat ∧ a.toNat < high.toNat :=
  ⟨UInt8.le_iff_toNat_le.1 h.1, UInt8.lt_iff_toNat_lt.1 h.2⟩

/-- An octet is known by its number. -/
theorem ofNat_eq_octet (h : n = a.toNat) : UInt8.ofNat n = a := by rw [h, UInt8.ofNat_toNat]

/-- An octet that carries six bits is the octet of these bits. -/
theorem eq_of_continuation? (h : continuation? b = some x) :
    x < 64 ∧ UInt8.ofNat (x + 0x80) = b := by
  unfold continuation? at h
  split at h
  · rename_i hbetween
    have hx := Option.some.inj h
    have hoctet : 0x80 ≤ b.toNat ∧ b.toNat < 0xc0 := by simpa using toNat_between hbetween
    exact ⟨by omega, ofNat_eq_octet (by omega)⟩
  · cases h

/-- What gives a character is its codepoint, and not too low for its length. -/
theorem eq_of_charFrom? {least : Nat} {c : Char} (h : charFrom? least n = some c) :
    least ≤ n ∧ c.toNat = n := by
  unfold charFrom? at h
  split at h
  · rename_i hleast
    exact ⟨hleast, toNat_of_charOfCode? h⟩
  · cases h

/-- The octets that decode to a character are those that encode it. -/
theorem encodeChar_of_decodeOctets? {octets : List UInt8} {c : Char}
    (h : decodeOctets? octets = some c) : String.utf8EncodeChar c = octets := by
  unfold decodeOctets? at h
  unfold String.utf8EncodeChar
  rw [show c.val.toNat = c.toNat from rfl]
  simp only
  -- The least codepoint of each length rules out the branches for shorter encodings.
  split at h
  · split at h
    · rename_i a hlow
      have hlow : a.toNat < 0x80 := by simpa using UInt8.lt_iff_toNat_lt.1 hlow
      have hc := toNat_of_charOfCode? h
      rw [if_pos (by omega), ofNat_eq_octet hc]
    · cases h
  · split at h
    · rename_i a b hlead
      obtain ⟨y, hy, hchar⟩ := Option.bind_eq_some_iff.1 h
      obtain ⟨hleast, hc⟩ := eq_of_charFrom? hchar
      obtain ⟨hy, rfl⟩ := eq_of_continuation? hy
      have hlead : 0xc0 ≤ a.toNat ∧ a.toNat < 0xe0 := by simpa using toNat_between hlead
      rw [if_neg (by omega), if_pos (by omega)]
      rw [ofNat_eq_octet (a := a) (by omega), show c.toNat % 64 = y by omega]
    · cases h
  · split at h
    · rename_i a b d hlead
      obtain ⟨y, hy, hrest⟩ := Option.bind_eq_some_iff.1 h
      obtain ⟨z, hz, hchar⟩ := Option.bind_eq_some_iff.1 hrest
      obtain ⟨hleast, hc⟩ := eq_of_charFrom? hchar
      obtain ⟨hy, rfl⟩ := eq_of_continuation? hy
      obtain ⟨hz, rfl⟩ := eq_of_continuation? hz
      have hlead : 0xe0 ≤ a.toNat ∧ a.toNat < 0xf0 := by simpa using toNat_between hlead
      rw [if_neg (by omega), if_neg (by omega), if_pos (by omega)]
      rw [ofNat_eq_octet (a := a) (by omega), show c.toNat / 64 % 64 = y by omega,
        show c.toNat % 64 = z by omega]
    · cases h
  · split at h
    · rename_i a b d e hlead
      obtain ⟨x, hx, hrest⟩ := Option.bind_eq_some_iff.1 h
      obtain ⟨y, hy, hrest⟩ := Option.bind_eq_some_iff.1 hrest
      obtain ⟨z, hz, hchar⟩ := Option.bind_eq_some_iff.1 hrest
      obtain ⟨hleast, hc⟩ := eq_of_charFrom? hchar
      obtain ⟨hx, rfl⟩ := eq_of_continuation? hx
      obtain ⟨hy, rfl⟩ := eq_of_continuation? hy
      obtain ⟨hz, rfl⟩ := eq_of_continuation? hz
      have hlead : 0xf0 ≤ a.toNat ∧ a.toNat < 0xf8 := by simpa using toNat_between hlead
      rw [if_neg (by omega), if_neg (by omega), if_neg (by omega)]
      rw [ofNat_eq_octet (a := a) (by omega), show c.toNat / 4096 % 64 = x by omega,
        show c.toNat / 64 % 64 = y by omega, show c.toNat % 64 = z by omega]
    · cases h
  · cases h

/-! ### What a lead octet announces -/

/-- An encoding of `n` octets begins with the octet. -/
def Announces (lead : UInt8) (n : Nat) : Prop :=
  ∃ c following, String.utf8EncodeChar c = lead :: following ∧ n = following.length + 1

/-- The octets that follow a lead octet in the least encoding that begins with it. -/
def leastFollowing (lead : UInt8) : List UInt8 :=
  if lead < 0x80 then []
  else if lead < 0xe0 then [0x80]
  else if lead = 0xe0 then [0xa0, 0x80]
  else if lead < 0xf0 then [0x80, 0x80]
  else if lead = 0xf0 then [0x90, 0x80, 0x80]
  else [0x80, 0x80, 0x80]

/-- Every lead octet of the table begins an encoding of the length that the table gives. There are
256 octets, and all are tried. -/
theorem isSome_decode_leastFollowing : ∀ n < 256, leadLength (UInt8.ofNat n) ≠ 0 →
    leadLength (UInt8.ofNat n) = (leastFollowing (UInt8.ofNat n)).length + 1 ∧
      (decodeOctets? (UInt8.ofNat n :: leastFollowing (UInt8.ofNat n))).isSome := by
  decide +kernel

/-- The table of lengths is that of the encodings. -/
theorem announces_iff : Announces lead n ↔ leadLength lead = n ∧ n ≠ 0 := by
  constructor
  · rintro ⟨c, following, hencode, rfl⟩
    obtain ⟨lead', following', hencode', hlength, -⟩ := exists_encoding c
    rw [hencode] at hencode'
    cases hencode'
    exact ⟨hlength, Nat.succ_ne_zero _⟩
  · rintro ⟨rfl, hne⟩
    have hleast := isSome_decode_leastFollowing lead.toNat lead.toNat_lt
    rw [UInt8.ofNat_toNat] at hleast
    obtain ⟨hlength, hsome⟩ := hleast hne
    obtain ⟨c, hc⟩ := Option.isSome_iff_exists.1 hsome
    exact ⟨c, leastFollowing lead, encodeChar_of_decodeOctets? hc, hlength⟩

end Lexwright.Text

import Lexwright.Proofs.Stream.Reader

/-!
# `Lexwright.Proofs.Stream.Decode`: a source gives exactly the text of its octets

Any octets begin with the encoding of a longest text (`Text.exists_isLongest`). Decoding gives the
characters of this text, and then stops with a result that the octets behind the text and the end
of the source determine.

* `Text.IsLongest`: the text, and the octets behind it, with which no encoding begins.
* `Source.Decodes`: the characters that decoding gives, and the result that stops it.
* `Source.Serves`: the octets of a source and what is behind them, without the interruptions that
  are passed over.
* `Source.Stops`: what the octets behind the text and the end of the source come to.
* `Source.exists_decodes`: decoding gives the longest text of what is served, and comes to that.
-/

set_option autoImplicit false

namespace Lexwright

/-! ### The text of some octets -/

namespace Text

variable {octets rest u v : List UInt8} {text other : List Char} {c d : Char}

/-- The octets of a text. -/
def encode (w : List Char) : List UInt8 := w.flatMap String.utf8EncodeChar

/-- No character takes no octet. -/
@[simp] theorem encode_nil : encode [] = [] := rfl

/-- The octets of the first character come first. -/
@[simp] theorem encode_cons : encode (c :: text) = String.utf8EncodeChar c ++ encode text := rfl

/-- The octets of two texts come one after another. -/
@[simp] theorem encode_append : encode (text ++ other) = encode text ++ encode other :=
  List.flatMap_append

/-- The octets are those of a text and a rest, and every text whose octets they begin with is a
prefix of this one. -/
structure IsLongest (octets : List UInt8) (text : List Char) (rest : List UInt8) : Prop where
  octets_eq : octets = encode text ++ rest
  longest : ∀ other, encode other <+: octets → other <+: text

/-- No encoding of a character begins the octets. -/
def BeginsNone (octets : List UInt8) : Prop := ∀ c, ¬String.utf8EncodeChar c <+: octets

/-- No encoding of a character begins another one: the decoder would give both characters. -/
theorem encodeChar_append_inj (h : String.utf8EncodeChar c ++ u = String.utf8EncodeChar d ++ v) :
    c = d ∧ u = v := by
  have hc := @Source.decode_encoded ⟨String.utf8EncodeChar c ++ u, .closed⟩ 0 c u rfl
  have hd := @Source.decode_encoded ⟨String.utf8EncodeChar c ++ u, .closed⟩ 0 d v h
  rw [hc] at hd
  simp only [Except.ok.injEq, Option.some.injEq, Prod.mk.injEq, Source.mk.injEq] at hd
  exact ⟨hd.1, hd.2.1⟩

/-- A text whose octets begin those of another text is a prefix of it, if no encoding begins behind
the other text. -/
theorem prefix_of_encode_prefix (hrest : BeginsNone rest)
    (h : encode other <+: encode text ++ rest) : other <+: text := by
  -- The texts are taken apart together, one character at a time.
  induction text generalizing other with
  | nil =>
    cases other with
    | nil => exact List.nil_prefix
    | cons d other => exact absurd ((List.prefix_append _ _).trans h) (hrest d)
  | cons c text ih =>
    cases other with
    | nil => exact List.nil_prefix
    | cons d other =>
      obtain ⟨later, h⟩ := h
      rw [encode_cons, encode_cons, List.append_assoc, List.append_assoc] at h
      obtain ⟨rfl, hrest⟩ := encodeChar_append_inj h
      exact List.cons_prefix_cons.2 ⟨rfl, ih ⟨later, hrest⟩⟩

/-- Behind the longest text no encoding begins. -/
theorem isLongest_iff :
    IsLongest octets text rest ↔ octets = encode text ++ rest ∧ BeginsNone rest := by
  constructor
  · intro h
    refine ⟨h.octets_eq, fun c hc => ?_⟩
    -- With the character that begins the rest, the text would be longer.
    have hlonger : encode (text ++ [c]) <+: octets := by
      rw [h.octets_eq, encode_append]
      exact List.prefix_append_right_inj _ |>.2 (by simpa using hc)
    have hlength := (h.longest _ hlonger).length_le
    rw [List.length_append, List.length_singleton] at hlength
    omega
  · intro ⟨hoctets, hrest⟩
    exact ⟨hoctets, fun other h => prefix_of_encode_prefix hrest (hoctets ▸ h)⟩

/-- Any octets begin with a longest text. -/
theorem exists_isLongest (octets : List UInt8) : ∃ text rest, IsLongest octets text rest := by
  simp only [isLongest_iff]
  induction hlength : octets.length using Nat.strongRecOn generalizing octets with
  | ind n ih =>
    by_cases hnone : BeginsNone octets
    · exact ⟨[], octets, rfl, hnone⟩
    · -- One character is taken off, and the rest is shorter.
      obtain ⟨c, hc⟩ := Classical.not_forall.1 hnone
      obtain ⟨later, rfl⟩ := Classical.not_not.1 hc
      have hpos := c.utf8Size_pos
      rw [List.length_append, String.length_utf8EncodeChar] at hlength
      obtain ⟨text, rest, rfl, hrest⟩ := ih later.length (by omega) later rfl
      exact ⟨c :: text, rest, by simp, hrest⟩

end Text

open Text

namespace Source

variable {s rest : Source} {offset n : Nat} {lead : UInt8} {c : Char} {text later : List Char}
  {octets following leftover more : List UInt8} {ending last : SourceEnd}
  {final : Except StreamError (Option Char)}

/-! ### Decoding a source to its end -/

/-- The result of a read that decodes the next character. -/
def outcome (s : Source) (offset : Nat) : Except StreamError (Option Char) :=
  (s.decode offset).map (Option.map Prod.fst)

/-- From an offset on, decoding gives the characters of a text, one after another, and behind them
a result that is no character. -/
inductive Decodes : Nat → Source → List Char → Except StreamError (Option Char) → Prop where
  | stop {offset : Nat} {s : Source} (h : ∀ c, s.outcome offset ≠ .ok (some c)) :
      Decodes offset s [] (s.outcome offset)
  | next {offset : Nat} {s rest : Source} {c : Char} {text : List Char}
      {final : Except StreamError (Option Char)} (h : s.decode offset = .ok (some (c, rest)))
      (later : Decodes (offset + c.utf8Size) rest text final) :
      Decodes offset s (c :: text) final

/-- Decoding stops with a result that is no character. -/
theorem Decodes.ne_some (h : Decodes offset s text final) (c : Char) : final ≠ .ok (some c) := by
  induction h with
  | stop h => exact h c
  | next _ _ ih => exact ih

/-- Behind the text, the result is that of the decoder. -/
theorem Decodes.eq_outcome (h : Decodes offset s [] final) : final = s.outcome offset := by
  cases h
  rfl

/-- Octets that encode a text are decoded to it, whatever stops the decoding behind them. -/
theorem Decodes.encoded
    (hstop : ∀ c, outcome ⟨leftover, ending⟩ (offset + (encode text).length) ≠ .ok (some c)) :
    Decodes offset ⟨encode text ++ leftover, ending⟩ text
      (outcome ⟨leftover, ending⟩ (offset + (encode text).length)) := by
  induction text generalizing offset with
  | nil => exact .stop hstop
  | cons c text ih =>
    rw [encode_cons, List.length_append, String.length_utf8EncodeChar, ← Nat.add_assoc] at hstop ⊢
    rw [List.append_assoc]
    exact .next (decode_encoded rfl) (ih hstop)

/-! ### Interruptions -/

/-- The octets break off inside a character: behind a text there is a lead octet, and fewer octets
follow it than it announces. -/
def BreaksOff (octets : List UInt8) : Prop :=
  ∃ text lead following n, octets = encode text ++ lead :: following ∧ Announces lead n ∧
    following.length + 1 < n

/-- The octets that a reader is served by a source, and what is behind them. An interruption inside
a character is passed over: the octets that the lead octet announces are asked for until they are
there. Any other interruption is a failure to the reader, behind the octets served before. -/
inductive Serves : Source → List UInt8 → SourceEnd → Prop where
  | closed (octets : List UInt8) : Serves ⟨octets, .closed⟩ octets .closed
  | failed (octets : List UInt8) (early : Bool) (message : String) :
      Serves ⟨octets, .failed early message⟩ octets (.failed early message)
  | between {octets : List UInt8} (h : ¬BreaksOff octets) (message : String)
      (more : List UInt8) (ending : SourceEnd) :
      Serves ⟨octets, .interrupted message more ending⟩ octets (.failed false message)
  | inside {octets more all : List UInt8} {ending last : SourceEnd} (h : BreaksOff octets)
      (message : String) (hserves : Serves ⟨octets ++ more, ending⟩ all last) :
      Serves ⟨octets, .interrupted message more ending⟩ all last

/-- Every source serves some octets. The induction is on the interruptions that are left. -/
theorem exists_serves (octets : List UInt8) (ending : SourceEnd) :
    ∃ all last, Serves ⟨octets, ending⟩ all last := by
  induction ending generalizing octets with
  | closed => exact ⟨_, _, .closed octets⟩
  | failed early message => exact ⟨_, _, .failed octets early message⟩
  | interrupted message more ending ih =>
    by_cases h : BreaksOff octets
    · obtain ⟨all, last, hserves⟩ := ih (octets ++ more)
      exact ⟨all, last, .inside h message hserves⟩
    · exact ⟨_, _, .between h message more ending⟩

/-- What a source serves is determined. -/
theorem Serves.eq {octets' : List UInt8} {last' : SourceEnd} (h : s.Serves octets last)
    (h' : s.Serves octets' last') : octets = octets' ∧ last = last' := by
  induction h with
  | closed octets =>
    cases h'
    exact ⟨rfl, rfl⟩
  | failed octets early message =>
    cases h'
    exact ⟨rfl, rfl⟩
  | between hbetween message more ending =>
    cases h' with
    | between => exact ⟨rfl, rfl⟩
    | inside hinside => exact absurd hinside hbetween
  | inside hinside message _ ih =>
    cases h' with
    | between hbetween => exact absurd hinside hbetween
    | inside _ _ hserves => exact ih hserves

/-- The octets that a lead octet announces are read over an interruption. -/
theorem decode_interrupted (hcut : following.length + 1 < leadLength lead) (message : String) :
    decode ⟨lead :: following, .interrupted message more ending⟩ offset =
      decode ⟨lead :: following ++ more, ending⟩ offset := by
  unfold decode
  simp only [List.cons_append]
  rw [readExactly_interrupted (by omega)]

/-- Where octets break off inside a character, decoding gives what it would give without the
interruption. -/
theorem Decodes.interrupted (hbreaks : BreaksOff octets) (message : String)
    (h : Decodes offset ⟨octets ++ more, ending⟩ text final) :
    Decodes offset ⟨octets, .interrupted message more ending⟩ text final := by
  obtain ⟨before, lead, following, n, rfl, hannounces, hcut⟩ := hbreaks
  obtain ⟨rfl, -⟩ := announces_iff.1 hannounces
  rw [List.append_assoc] at h
  -- The text before the character is the same on both sides. At the lead octet the decoder gives
  -- the same result, and leaves the same source.
  induction before generalizing offset text with
  | nil =>
    rw [encode_nil, List.nil_append] at h ⊢
    have hsame := @decode_interrupted offset _ _ more ending hcut message
    generalize hs : (⟨lead :: following ++ more, ending⟩ : Source) = s at h hsame
    cases h with
    | stop hstop =>
      unfold outcome at hstop ⊢
      rw [← hsame] at hstop ⊢
      exact .stop hstop
    | next hdecode hlater => exact .next (hsame.trans hdecode) hlater
  | cons c before ih =>
    rw [encode_cons, List.append_assoc] at h ⊢
    have hfirst := @decode_encoded
      ⟨String.utf8EncodeChar c ++ (encode before ++ (lead :: following ++ more)), ending⟩ offset c
      _ rfl
    generalize hs : (⟨_, ending⟩ : Source) = s at h hfirst
    cases h with
    | stop hstop => exact absurd (by rw [outcome, hfirst]; rfl) (hstop c)
    | next hdecode hlater =>
      rw [hdecode] at hfirst
      cases hfirst
      subst hs
      exact .next (decode_encoded rfl) (ih hlater)

/-! ### The end of the decoding -/

/-- What a source comes to at an offset from which on no encoding begins, with the octets that it
still serves. A lead octet that begins no encoding is invalid, and one that begins an encoding
announces its length. -/
inductive Stops (offset : Nat) :
    List UInt8 → SourceEnd → Except StreamError (Option Char) → Prop where
  | closed : Stops offset [] .closed (.ok none)
  | leftover (lead : UInt8) (following : List UInt8) :
      Stops offset (lead :: following) .closed (.error (.encoding offset))
  | failed (early : Bool) (message : String) :
      Stops offset [] (.failed early message) (.error (.source message))
  | invalid {lead : UInt8} (h : ∀ n, ¬Announces lead n) (following : List UInt8) (early : Bool)
      (message : String) :
      Stops offset (lead :: following) (.failed early message) (.error (.encoding offset))
  | whole {lead : UInt8} {n : Nat} (h : Announces lead n) {following : List UInt8}
      (hle : n ≤ following.length + 1) (early : Bool) (message : String) :
      Stops offset (lead :: following) (.failed early message) (.error (.encoding offset))
  | cutEarly {lead : UInt8} {n : Nat} (h : Announces lead n) {following : List UInt8}
      (hlt : following.length + 1 < n) (message : String) :
      Stops offset (lead :: following) (.failed true message) (.error (.encoding offset))
  | cutFailed {lead : UInt8} {n : Nat} (h : Announces lead n) {following : List UInt8}
      (hlt : following.length + 1 < n) (message : String) :
      Stops offset (lead :: following) (.failed false message) (.error (.source message))

/-- Decoding stops with a result that is no character. -/
theorem Stops.ne_some (h : Stops offset octets ending final) (c : Char) :
    final ≠ .ok (some c) := by
  cases h <;> exact fun h => nomatch h

/-- Decoding never fails for lack of room: it goes forward only. -/
theorem Stops.ne_noRoomToBackup (h : Stops offset octets ending final)
    (requested available : Nat) : final ≠ .error (.noRoomToBackup requested available) := by
  cases h <;> exact fun h => nomatch h

/-- An invalid lead octet is an error, and so are the octets that a lead octet announces if they
are all there and encode no character. -/
theorem outcome_of_beginsNone (hnone : BeginsNone (lead :: following))
    (hle : leadLength lead ≤ following.length + 1) :
    outcome ⟨lead :: following, ending⟩ offset = .error (.encoding offset) := by
  unfold outcome decode
  simp only
  by_cases hzero : leadLength lead = 0
  · rw [if_pos hzero]
    rfl
  · rw [if_neg hzero, readExactly_of_le (by omega)]
    cases hdecode : decodeOctets? (lead :: following.take (leadLength lead - 1)) with
    | none => simp only [hdecode]; rfl
    | some c =>
      -- The octets of the character would begin those of the source.
      refine absurd ?_ (hnone c)
      rw [encodeChar_of_decodeOctets? hdecode]
      exact List.cons_prefix_cons.2 ⟨rfl, List.take_prefix _ _⟩

/-- An octet that announces more octets than there are is an error, which depends on why they are
not there. -/
theorem outcome_of_shortfall {shortfall : Shortfall}
    (hcut : following.length + 1 < leadLength lead)
    (h : readExactly (leadLength lead - 1) following ending = .error shortfall) :
    outcome ⟨lead :: following, ending⟩ offset = .error (shortfall.error offset) := by
  unfold outcome decode
  simp only [h]
  rw [if_neg (by omega)]
  rfl

/-- At the end of a source everything that is left over is an error. -/
theorem stops_closed (hnone : BeginsNone octets) :
    Stops offset octets .closed (outcome ⟨octets, .closed⟩ offset) := by
  cases octets with
  | nil => exact .closed
  | cons lead following =>
    by_cases hle : leadLength lead ≤ following.length + 1
    · rw [outcome_of_beginsNone hnone hle]
      exact .leftover lead following
    · rw [outcome_of_shortfall (Nat.lt_of_not_le hle) (readExactly_closed (by omega))]
      exact .leftover lead following

/-- Where a source has failed, it depends on the octets that are left over and on the failure. -/
theorem stops_failed (hnone : BeginsNone octets) (early : Bool) (message : String) :
    Stops offset octets (.failed early message)
      (outcome ⟨octets, .failed early message⟩ offset) := by
  cases octets with
  | nil => exact .failed early message
  | cons lead following =>
    by_cases hle : leadLength lead ≤ following.length + 1
    · rw [outcome_of_beginsNone hnone hle]
      by_cases hzero : leadLength lead = 0
      · refine .invalid (fun n hn => ?_) following early message
        obtain ⟨rfl, hne⟩ := announces_iff.1 hn
        exact hne hzero
      · exact .whole (announces_iff.2 ⟨rfl, hzero⟩) hle early message
    · have hcut := Nat.lt_of_not_le hle
      have hannounces := announces_iff.2 ⟨rfl, show leadLength lead ≠ 0 by omega⟩
      rw [outcome_of_shortfall hcut (readExactly_failed (by omega) early message)]
      cases early with
      | true => exact .cutEarly hannounces hcut message
      | false => exact .cutFailed hannounces hcut message

/-- An interruption that is not inside a character comes to what a failure comes to. -/
theorem outcome_interrupted (hnone : BeginsNone octets) (hbreaks : ¬BreaksOff octets)
    (message : String) :
    outcome ⟨octets, .interrupted message more ending⟩ offset =
      outcome ⟨octets, .failed false message⟩ offset := by
  cases octets with
  | nil => rfl
  | cons lead following =>
    have hle : leadLength lead ≤ following.length + 1 := by
      refine Nat.le_of_not_lt fun hlt => hbreaks ⟨[], lead, following, _, rfl, ?_, hlt⟩
      exact announces_iff.2 ⟨rfl, by omega⟩
    rw [outcome_of_beginsNone hnone hle, outcome_of_beginsNone hnone hle]

/-- Decoding gives the text with which the octets begin that a source serves, and stops with the
result to which the octets behind the text and the end of the source come. -/
theorem Serves.exists_decodes (h : s.Serves octets last)
    (hlongest : IsLongest octets text leftover) (offset : Nat) :
    ∃ final, Decodes offset s text final ∧
      Stops (offset + (encode text).length) leftover last final := by
  obtain ⟨rfl, hnone⟩ := isLongest_iff.1 hlongest
  generalize hoctets : encode text ++ leftover = octets at h
  induction h with
  | closed =>
    subst hoctets
    have hstops := @stops_closed (offset + (encode text).length) _ hnone
    exact ⟨_, .encoded hstops.ne_some, hstops⟩
  | failed _ early message =>
    subst hoctets
    have hstops := @stops_failed (offset + (encode text).length) _ hnone early message
    exact ⟨_, .encoded hstops.ne_some, hstops⟩
  | between hbetween message more ending =>
    subst hoctets
    -- Behind the text the octets break off only where all of them do.
    have hbreaks : ¬BreaksOff leftover := by
      rintro ⟨before, lead, following, n, rfl, hcut⟩
      exact hbetween ⟨text ++ before, lead, following, n, by rw [encode_append, List.append_assoc],
        hcut⟩
    have hstops := @stops_failed (offset + (encode text).length) _ hnone false message
    rw [← @outcome_interrupted _ _ more ending hnone hbreaks] at hstops
    exact ⟨_, .encoded hstops.ne_some, hstops⟩
  | inside hinside message _ ih =>
    obtain ⟨final, hdecodes, hstops⟩ := ih hoctets
    exact ⟨final, hdecodes.interrupted hinside message, hstops⟩

/-- Every source has a text that decoding gives, and a result that stops it. -/
theorem exists_decodes (s : Source) : ∃ octets ending text leftover final,
    s.Serves octets ending ∧ IsLongest octets text leftover ∧ Decodes 0 s text final ∧
      Stops (encode text).length leftover ending final := by
  obtain ⟨octets, ending, hserves⟩ := exists_serves s.octets s.ending
  obtain ⟨text, leftover, hlongest⟩ := exists_isLongest octets
  obtain ⟨final, hdecodes, hstops⟩ := hserves.exists_decodes hlongest 0
  rw [Nat.zero_add] at hstops
  exact ⟨octets, ending, text, leftover, final, hserves, hlongest, hdecodes, hstops⟩

end Source

end Lexwright

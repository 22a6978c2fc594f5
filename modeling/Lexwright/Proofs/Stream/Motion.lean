import Lexwright.Proofs.Stream.Offset

/-!
# `Lexwright.Proofs.Stream.Motion`: a reader is a cursor in a fixed text

Whatever octets a source serves and however it ends, there is a text and a result behind it. For a
reader that reads, puts back and begins tokens in any order, only two places in this text matter:
where the token began, and where the next character is.

* `Reader.Gives`: the text and the result, as a fresh reader gives them that only reads.
* `Place.move`: what a motion answers at a place, and where it leads.
* `Reader.Along`: where a reader stands in the text, whether its source goes on, has ended or has
  failed. `Reader.steady_along` says that reading and going back move it as they should.
* `Reader.decodes`: the text and the result that decoding gives.
* `Reader.refines_place`: the replies of a reader to any motions are those of a place.
* `Reader.Reachable`: the readers that motions lead to.
-/

set_option autoImplicit false

namespace Lexwright

open Text

/-! ### Motions -/

/-- What is asked of a reader. -/
inductive Motion where
  | read
  | backup (n : Nat)
  | beginToken
deriving DecidableEq, Repr

/-- What the answer to a motion is: a character, the end or a failure; or why the reader did not go
back. -/
inductive Reply where
  | read (result : Except StreamError (Option Char))
  | backup (refusal : Option StreamError)
  | beginToken

/-- The replies to some motions, and what the last motion leaves. -/
def Motion.run {α : Type} (move : α → Motion → Reply × α) (a : α) : List Motion → List Reply × α
  | [] => ([], a)
  | m :: motions =>
    let now := move a m
    let later := run move now.2 motions
    (now.1 :: later.1, later.2)

/-- A motion of a reader. A refusal leaves the reader as it is. -/
def Reader.move (r : Reader) : Motion → Reply × Reader
  | .read => (.read r.read.1, r.read.2)
  | .backup n =>
    match r.backup n with
    | .ok r => (.backup none, r)
    | .error e => (.backup (some e), r)
  | .beginToken => (.beginToken, r.beginToken)

/-- Two places in a text: where the token began, and where the next character is. -/
structure Place where
  token : Nat
  next : Nat
deriving DecidableEq, Repr

/-- A motion in a text, behind which there is a final result. -/
def Place.move (text : List Char) (final : Except StreamError (Option Char)) (p : Place) :
    Motion → Reply × Place
  | .read =>
    match text[p.next]? with
    | some c => (.read (.ok (some c)), { p with next := p.next + 1 })
    | none => (.read final, p)
  | .backup n =>
    if n ≤ p.next - p.token then (.backup none, { p with next := p.next - n })
    else (.backup (some (.noRoomToBackup n (p.next - p.token))), p)
  | .beginToken => (.beginToken, { p with token := p.next })

namespace Reader

variable {r r' : Reader} {text later taken rest back : List Char} {c : Char} {n total : Nat}
  {final : Except StreamError (Option Char)} {source : Source} {p : Place}

/-! ### Readers along their texts -/

/-- The source has still to give some characters up to the octet `total`, and then the final result;
or it has given all its characters, and the reader knows the result. -/
inductive Pending (total : Nat) (final : Except StreamError (Option Char)) :
    ReaderStatus → Source → List Char → Prop where
  | reading {source : Source} {later : List Char} {offset : Nat}
      (decodes : source.Decodes offset later final)
      (total_eq : offset + (encode later).length = total) :
      Pending total final .reading source later
  | failed {source : Source} {e : StreamError} (final_eq : final = .error e) :
      Pending total final (.failed e) source []
  | closed {source : Source} (final_eq : final = .ok none) : Pending total final .closed source []

/-- The reader has taken `taken` since the token began, the last character first, and `rest` is
left of the text: characters that were put back, and then what the source has still to give. -/
structure Along (text : List Char) (final : Except StreamError (Option Char)) (r : Reader)
    (taken rest : List Char) : Prop where
  taken_eq : r.taken = taken
  place : ∃ before, text = before ++ taken.reverse ++ rest ∧
    r.offset = (encode (before ++ taken.reverse)).length
  pending : ∃ later, rest = r.ahead ++ later ∧
    Pending (encode text).length final r.status r.source later

/-- The final result is no character. -/
theorem Pending.ne_some {status : ReaderStatus} (h : Pending total final status source later)
    (c : Char) : final ≠ .ok (some c) := by
  cases h with
  | reading hdecodes => exact hdecodes.ne_some c
  | failed hfinal => simp [hfinal]
  | closed hfinal => simp [hfinal]

/-- The source gives its next character. -/
theorem Pending.readSource (h : Pending total final r.status r.source (c :: later))
    (hoffset : r.offset + (encode (c :: later)).length = total) :
    ∃ source', r.readSource = (.ok (some c), r.take c source') ∧
      Pending total final r.status source' later := by
  generalize hstatus : r.status = status at h
  cases h with
  | reading hdecodes htotal =>
    -- The reader stands where the source is decoded.
    obtain rfl := Nat.add_right_cancel (hoffset.trans htotal.symm)
    cases hdecodes with
    | @next _ _ source' _ _ _ hdecode hlater =>
      refine ⟨source', ?_, .reading hlater ?_⟩
      · unfold Reader.readSource
        simp only [hstatus, hdecode]
      · rw [← hoffset, encode_cons, List.length_append, String.length_utf8EncodeChar, Nat.add_assoc]

/-- Behind its characters the source gives the final result, and nothing moves. -/
theorem Pending.readSource_nil (h : Pending total final r.status r.source [])
    (hoffset : r.offset = total) :
    ∃ status, r.readSource = (final, { r with status }) ∧
      Pending total final status r.source [] := by
  have hne := h.ne_some
  generalize hstatus : r.status = status at h
  unfold Reader.readSource
  cases h with
  | reading hdecodes htotal =>
    obtain rfl := htotal.trans hoffset.symm
    have hfinal := hdecodes.eq_outcome
    unfold Source.outcome at hfinal
    rw [hstatus]
    simp only
    cases hdecode : r.source.decode r.offset with
    | error e =>
      rw [hdecode] at hfinal
      exact ⟨_, Prod.ext hfinal.symm rfl, .failed hfinal⟩
    | ok found =>
      rw [hdecode] at hfinal
      cases found with
      | none => exact ⟨_, Prod.ext hfinal.symm rfl, .closed hfinal⟩
      | some x => exact absurd hfinal (hne x.1)
  | failed hfinal =>
    refine ⟨_, ?_, .failed hfinal⟩
    simp only [hstatus]
    rw [hfinal, ← hstatus]
  | closed hfinal =>
    refine ⟨_, ?_, .closed hfinal⟩
    simp only [hstatus]
    rw [hfinal, ← hstatus]

/-- The offset is that of the text that is left. -/
theorem Along.offset_add (h : Along text final r taken rest) :
    r.offset + (encode rest).length = (encode text).length := by
  obtain ⟨before, htext, hoffset⟩ := h.place
  rw [hoffset, htext, @encode_append _ rest, List.length_append]

/-- Where a character is left, it is read, and the reader stands behind it. -/
theorem Along.read (h : Along text final r taken (c :: rest)) :
    ∃ r', r.read = (.ok (some c), r') ∧ Along text final r' (c :: taken) rest := by
  have htotal := h.offset_add
  obtain ⟨rfl, ⟨before, htext, hoffset⟩, later, hrest, hpending⟩ := h
  have htext' : text = before ++ (c :: r.taken).reverse ++ rest := by
    rw [htext, List.reverse_cons]
    simp
  have hoffset' : r.offset + c.utf8Size =
      (encode (before ++ (c :: r.taken).reverse)).length := by
    rw [hoffset, List.reverse_cons, ← List.append_assoc, @encode_append _ [c], List.length_append,
      encode_cons, encode_nil, List.append_nil, String.length_utf8EncodeChar]
  unfold Reader.read
  -- The character was put back, or the source gives it.
  cases hahead : r.ahead with
  | cons d ahead =>
    rw [hahead, List.cons_append] at hrest
    cases hrest
    exact ⟨_, rfl, rfl, ⟨before, htext', hoffset'⟩, later, rfl, hpending⟩
  | nil =>
    rw [hahead, List.nil_append] at hrest
    subst hrest
    obtain ⟨source', hread, hpending'⟩ := hpending.readSource htotal
    refine ⟨_, hread, rfl, ⟨before, htext', hoffset'⟩, rest, ?_, hpending'⟩
    rw [show (r.take c source').ahead = r.ahead from rfl, hahead]
    rfl

/-- Where no character is left, the final result is read, and the reader stands where it stood. -/
theorem Along.finish (h : Along text final r taken []) :
    ∃ r', r.read = (final, r') ∧ Along text final r' taken [] := by
  have htotal := h.offset_add
  obtain ⟨rfl, hplace, later, hrest, hpending⟩ := h
  obtain ⟨hahead, rfl⟩ := List.append_eq_nil_iff.1 hrest.symm
  obtain ⟨status, hread, hpending'⟩ := hpending.readSource_nil htotal
  unfold Reader.read
  rw [hahead]
  exact ⟨_, hread, rfl, hplace, [], hrest, hpending'⟩

/-- Characters of the token go back to those that are left. -/
theorem Along.backup (h : Along text final r (back ++ taken) rest) :
    ∃ r', r.backup back.length = .ok r' ∧ Along text final r' taken (back.reverse ++ rest) := by
  obtain ⟨htaken, ⟨before, htext, hoffset⟩, later, rfl, hpending⟩ := h
  have hroom : ¬r.taken.length < back.length := by
    rw [htaken, List.length_append]
    omega
  unfold Reader.backup
  rw [if_neg hroom, htaken, List.take_left, List.drop_left]
  refine ⟨_, rfl, rfl, ⟨before, ?_, ?_⟩, later, List.append_assoc .. |>.symm, hpending⟩
  · rw [htext, List.reverse_append]
    simp
  · -- The octets of the characters that go back are the last of those counted.
    show r.offset - back.foldr (fun c n => c.utf8Size + n) 0 = _
    rw [foldr_utf8Size, hoffset, List.reverse_append, ← List.append_assoc,
      @encode_append (before ++ taken.reverse) back.reverse, List.length_append,
      Nat.add_sub_cancel]

/-- A token begins where the reader stands. -/
theorem Along.beginToken (h : Along text final r taken rest) :
    Along text final r.beginToken [] rest := by
  obtain ⟨rfl, ⟨before, htext, hoffset⟩, hpending⟩ := h
  refine ⟨rfl, ⟨before ++ r.taken.reverse, ?_, ?_⟩, hpending⟩
  · rw [htext, List.reverse_nil, List.append_nil]
  · rw [List.reverse_nil, List.append_nil]
    exact hoffset

/-- The image is what was taken since the token began. -/
theorem Along.image (h : Along text final r taken rest) :
    r.image = String.ofList taken.reverse := by
  unfold Reader.image
  rw [h.taken_eq]

/-- The final result is no character. -/
theorem Along.ne_some (h : Along text final r taken rest) (c : Char) : final ≠ .ok (some c) := by
  obtain ⟨later, -, hpending⟩ := h.pending
  exact hpending.ne_some c

/-- Readers go back and forth in their texts, and behind them they always give the same result. -/
theorem steady_along (text : List Char) (hfinal : ∀ c, final ≠ .ok (some c)) :
    CharStream.Steady final (Along text final) where
  ne_some := hfinal
  read := Along.read
  finish := Along.finish
  backup := Along.backup
  beginToken := Along.beginToken
  image := Along.image

/-! ### The text of a source, and the result behind it -/

/-- The reader after `n` reads. -/
def afterReads (r : Reader) : Nat → Reader
  | 0 => r
  | n + 1 => afterReads r.read.2 n

/-- A fresh reader that only reads gives the characters of the text, and then always the final
result. -/
structure Gives (source : Source) (text : List Char) (final : Except StreamError (Option Char)) :
    Prop where
  read_eq : ∀ n, (({ source } : Reader).afterReads n).read.1 =
    text[n]?.elim final fun c => .ok (some c)
  ne_some : ∀ c, final ≠ .ok (some c)

/-- A read answers with the next character of the text, or with the final result. -/
theorem Along.read_fst (h : Along text final r taken rest) :
    r.read.1 = rest.head?.elim final fun c => .ok (some c) := by
  cases rest with
  | nil =>
    obtain ⟨r', hread, -⟩ := h.finish
    rw [hread]
    rfl
  | cons c rest =>
    obtain ⟨r', hread, -⟩ := h.read
    rw [hread]
    rfl

/-- Each read takes one character of the text, as long as there is one. -/
theorem Along.afterReads (h : Along text final r taken rest) (n : Nat) :
    Along text final (r.afterReads n) ((rest.take n).reverse ++ taken) (rest.drop n) := by
  induction n generalizing r taken rest with
  | zero => exact h
  | succ n ih =>
    show Along text final (r.read.2.afterReads n) _ _
    cases rest with
    | nil =>
      obtain ⟨r', hread, hr'⟩ := h.finish
      rw [hread]
      simpa using ih hr'
    | cons c rest =>
      obtain ⟨r', hread, hr'⟩ := h.read
      rw [hread]
      simpa using ih hr'

/-- What is read next from a place in the text. -/
theorem Along.read_afterReads (h : Along text final r taken rest) (n : Nat) :
    (r.afterReads n).read.1 = rest[n]?.elim final fun c => .ok (some c) := by
  rw [(h.afterReads n).read_fst, List.head?_drop]

/-- What a reader goes along is what its source gives. -/
theorem Along.gives (h : Along text final { source } [] text) : Gives source text final :=
  ⟨h.read_afterReads, h.ne_some⟩

/-- A fresh reader goes along the text that decoding its source gives. -/
theorem along_of_decodes (h : source.Decodes 0 text final) :
    Along text final { source } [] text :=
  ⟨rfl, ⟨[], rfl, rfl⟩, text, rfl, .reading h (Nat.zero_add _)⟩

/-- Every source has a text and a result behind it, along which a fresh reader goes. The result is
one of decoding. -/
theorem exists_along (source : Source) :
    ∃ text final, Along text final { source } [] text ∧
      ∀ requested available, final ≠ .error (.noRoomToBackup requested available) := by
  obtain ⟨_, _, text, _, final, -, -, hdecodes, hstops⟩ := source.exists_decodes
  exact ⟨text, final, along_of_decodes hdecodes, hstops.ne_noRoomToBackup⟩

/-- What a source gives is determined: the text ends where no character is given. -/
theorem Gives.eq {text' : List Char} {final' : Except StreamError (Option Char)}
    (h : Gives source text final) (h' : Gives source text' final') :
    text = text' ∧ final = final' := by
  have hsame : ∀ n, text[n]?.elim final (fun c => .ok (some c)) =
      text'[n]?.elim final' fun c => .ok (some c) := fun n => (h.read_eq n).symm.trans (h'.read_eq n)
  -- A text ends where something else than a character is given.
  have htext : text = text' := by
    refine List.ext_getElem? fun n => ?_
    have hn := hsame n
    cases hc : text[n]? with
    | none =>
      cases hd : text'[n]? with
      | none => rfl
      | some d =>
        rw [hc, hd] at hn
        exact absurd hn (h.ne_some d)
    | some c =>
      cases hd : text'[n]? with
      | none =>
        rw [hc, hd] at hn
        exact absurd hn.symm (h'.ne_some c)
      | some d =>
        rw [hc, hd] at hn
        cases hn
        rfl
  subst htext
  have hend := hsame text.length
  rw [List.getElem?_eq_none (Nat.le_refl _)] at hend
  exact ⟨rfl, hend⟩

/-- A fresh reader goes along what its source gives. -/
theorem Gives.along (h : Gives source text final) : Along text final { source } [] text := by
  obtain ⟨text', final', halong, -⟩ := exists_along source
  obtain ⟨rfl, rfl⟩ := h.eq halong.gives
  exact halong

/-- The source of a text gives it, and ends. -/
theorem along_ofString (text : List Char) :
    Along text (.ok none) { source := .ofString (String.ofList text) } [] text := by
  have hsource : Source.ofString (String.ofList text) = ⟨encode text ++ [], .closed⟩ := by
    refine congrArg (Source.mk · .closed) ?_
    rw [List.append_nil]
    exact (Source.octets_ofString _).trans (by rw [String.toList_ofList]; rfl)
  rw [hsource]
  exact along_of_decodes (.encoded fun _ h => nomatch h)

/-! ### Readers and places -/

/-- The reader stands at a place in the text. -/
structure Follows (text : List Char) (final : Except StreamError (Option Char)) (r : Reader)
    (p : Place) : Prop where
  token_le : p.token ≤ p.next
  next_le : p.next ≤ text.length
  along : Along text final r ((text.take p.next).drop p.token).reverse (text.drop p.next)

/-- What is observed of a reader at a place: the image is the text from the token start up to the
next character, and the offset is that of the next character. -/
structure Shows (text : List Char) (r : Reader) (p : Place) : Prop where
  token_le : p.token ≤ p.next
  next_le : p.next ≤ text.length
  image_eq : r.image = String.ofList ((text.take p.next).drop p.token)
  offset_eq : r.offset = (encode (text.take p.next)).length

/-- What is observed of a reader is what is to be observed at its place. -/
theorem Follows.shows (h : Follows text final r p) : Shows text r p := by
  refine ⟨h.token_le, h.next_le, ?_, ?_⟩
  · rw [h.along.image, List.reverse_reverse]
  · obtain ⟨before, htext, hoffset⟩ := h.along.place
    rw [hoffset, List.reverse_reverse]
    -- What lies before the next character is what is not left.
    have htake := List.append_cancel_right ((List.take_append_drop p.next text).trans htext)
    rw [List.reverse_reverse] at htake
    rw [← htake]

/-- The number of characters that may be put back. -/
theorem Follows.length_taken (h : Follows text final r p) : r.taken.length = p.next - p.token := by
  rw [h.along.taken_eq, List.length_reverse, List.length_drop, List.length_take,
    Nat.min_eq_left h.next_le]

/-- A read answers what it answers at the place, and the reader stands at the next place. -/
theorem Follows.read (h : Follows text final r p) :
    (r.move .read).1 = (p.move text final .read).1 ∧
      Follows text final (r.move .read).2 (p.move text final .read).2 := by
  have halong := h.along
  unfold Reader.move Place.move
  cases hc : text[p.next]? with
  | none =>
    rw [List.drop_eq_nil_of_le (List.getElem?_eq_none_iff.1 hc)] at halong
    obtain ⟨r', hread, hr'⟩ := halong.finish
    simp only [hread]
    refine ⟨trivial, h.token_le, h.next_le, ?_⟩
    rw [List.drop_eq_nil_of_le (List.getElem?_eq_none_iff.1 hc)]
    exact hr'
  | some c =>
    obtain ⟨hlt, rfl⟩ := List.getElem?_eq_some_iff.1 hc
    rw [List.drop_eq_getElem_cons hlt] at halong
    obtain ⟨r', hread, hr'⟩ := halong.read
    simp only [hread]
    refine ⟨trivial, Nat.le_succ_of_le h.token_le, hlt, ?_⟩
    -- The character goes to the end of the token.
    have htaken : (text.take (p.next + 1)).drop p.token =
        (text.take p.next).drop p.token ++ [text[p.next]] := by
      rw [List.take_succ_eq_append_getElem hlt, List.drop_append_of_le_length]
      rw [List.length_take]
      exact Nat.le_min.2 ⟨h.token_le, Nat.le_trans h.token_le h.next_le⟩
    rw [htaken, List.reverse_append]
    exact hr'

/-- A step back is granted or refused as at the place, and a refusal leaves the reader where it
stands. -/
theorem Follows.backup (h : Follows text final r p) (n : Nat) :
    (r.move (.backup n)).1 = (p.move text final (.backup n)).1 ∧
      Follows text final (r.move (.backup n)).2 (p.move text final (.backup n)).2 := by
  have hroom := h.length_taken
  have htoken := h.token_le
  have hnext := h.next_le
  unfold Reader.move Place.move
  by_cases hn : n ≤ p.next - p.token
  · -- The last `n` characters of the token go back.
    have hsplit : ((text.take p.next).drop p.token).reverse =
        ((text.take p.next).drop (p.next - n)).reverse ++
          ((text.take (p.next - n)).drop p.token).reverse := by
      have htake : (text.take p.next).take (p.next - n) = text.take (p.next - n) := by
        rw [List.take_take, Nat.min_eq_left (Nat.sub_le _ _)]
      rw [← List.reverse_append, ← htake, ← List.drop_append_of_le_length, List.take_append_drop]
      rw [List.length_take, List.length_take]
      omega
    have hlength : ((text.take p.next).drop (p.next - n)).reverse.length = n := by
      rw [List.length_reverse, List.length_drop, List.length_take]
      omega
    have halong := h.along
    rw [hsplit] at halong
    obtain ⟨r', hbackup, hr'⟩ := halong.backup
    rw [hlength] at hbackup
    simp only [hbackup, if_pos hn]
    have hrest : (text.take p.next).drop (p.next - n) ++ text.drop p.next =
        text.drop (p.next - n) := by
      rw [← List.drop_append_of_le_length, List.take_append_drop]
      rw [List.length_take]
      omega
    rw [List.reverse_reverse, hrest] at hr'
    have htoken' : p.token ≤ p.next - n := by omega
    exact ⟨trivial, htoken', Nat.le_trans (Nat.sub_le ..) hnext, hr'⟩
  · -- The token has fewer characters, and the reader stays where it is.
    have hbackup : r.backup n = .error (.noRoomToBackup n (p.next - p.token)) := by
      unfold Reader.backup
      rw [hroom, if_pos (Nat.lt_of_not_le hn)]
    simp only [hbackup, if_neg hn]
    exact ⟨trivial, h⟩

/-- The token begins at the next character. -/
theorem Follows.beginToken (h : Follows text final r p) :
    Follows text final r.beginToken { p with token := p.next } := by
  refine ⟨Nat.le_refl _, h.next_le, ?_⟩
  show Along text final r.beginToken ((text.take p.next).drop p.next).reverse (text.drop p.next)
  rw [List.drop_eq_nil_of_le (by rw [List.length_take]; exact Nat.min_le_left ..)]
  exact h.along.beginToken

/-- A motion answers what it answers at the place, and the reader stands at the next place. -/
theorem Follows.move (h : Follows text final r p) (m : Motion) :
    (r.move m).1 = (p.move text final m).1 ∧
      Follows text final (r.move m).2 (p.move text final m).2 := by
  cases m with
  | read => exact h.read
  | backup n => exact h.backup n
  | beginToken => exact ⟨rfl, h.beginToken⟩

/-- The same for any motions, by induction on them. -/
theorem Follows.run (h : Follows text final r p) (motions : List Motion) :
    (Motion.run Reader.move r motions).1 = (Motion.run (Place.move text final) p motions).1 ∧
      Follows text final (Motion.run Reader.move r motions).2
        (Motion.run (Place.move text final) p motions).2 := by
  induction motions generalizing r p with
  | nil => exact ⟨rfl, h⟩
  | cons m motions ih =>
    obtain ⟨hreply, hnext⟩ := h.move m
    obtain ⟨hreplies, hlast⟩ := ih hnext
    exact ⟨List.cons_eq_cons.2 ⟨hreply, hreplies⟩, hlast⟩

/-- The readers that there are: a fresh one, and what motions make of one. -/
inductive Reachable : Reader → Prop where
  | fresh (source : Source) : Reachable { source }
  | move {r : Reader} (h : Reachable r) (m : Motion) : Reachable (r.move m).2

/-- Every reader stands at a place in some text, behind which decoding stops. -/
theorem Reachable.exists_follows (h : r.Reachable) :
    ∃ text final p, Follows text final r p ∧
      ∀ requested available, final ≠ .error (.noRoomToBackup requested available) := by
  induction h with
  | fresh source =>
    obtain ⟨text, final, halong, hfinal⟩ := exists_along source
    exact ⟨text, final, ⟨0, 0⟩, ⟨Nat.le_refl _, Nat.zero_le _, halong⟩, hfinal⟩
  | move _ m ih =>
    obtain ⟨text, final, p, hfollows, hfinal⟩ := ih
    exact ⟨text, final, _, (hfollows.move m).2, hfinal⟩

/-- A reader refines a cursor in a fixed text: the source gives a text and then always the same
result, and to any reads, steps back and token starts the reader replies what the cursor replies
that goes through this text. After them its image and its offset are those of the cursor. -/
theorem refines_place (source : Source) : ∃ text final, Gives source text final ∧
    ∀ motions : List Motion,
      (Motion.run Reader.move { source } motions).1 =
          (Motion.run (Place.move text final) ⟨0, 0⟩ motions).1 ∧
        Shows text (Motion.run Reader.move { source } motions).2
          (Motion.run (Place.move text final) ⟨0, 0⟩ motions).2 := by
  obtain ⟨text, final, halong, -⟩ := exists_along source
  have hstart : Follows text final { source } ⟨0, 0⟩ := ⟨Nat.le_refl _, Nat.zero_le _, halong⟩
  refine ⟨text, final, halong.gives, fun motions => ?_⟩
  obtain ⟨hreplies, hlast⟩ := hstart.run motions
  exact ⟨hreplies, hlast.shows⟩

end Reader

end Lexwright

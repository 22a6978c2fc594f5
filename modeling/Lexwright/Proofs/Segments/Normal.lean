import Lexwright.Proofs.Segments.Complement

/-!
# `Lexwright.Proofs.Segments.Normal`: the canonical form of a set

`normalize` is one pass over the segments, in numbers without a bound. In words of 32 bits the pass
keeps the segment at hand, and compares the next one with the number behind its end. The last word
has no number behind it, and stands for its own. `normalizeWords` is this pass, and
`normalizeWords_eq` says that nothing is lost by it.

* `joinFrom`, `normalizeWords`: the pass in words.
* `containsWord`: the look-up in words, in the segments up to the greatest one that can begin at the
  codepoint.
* `normalize_eq_iff`: normalized sets are equal just where the sets cover the same codepoints.
* `normalize_exact`: all of this together.
-/

set_option autoImplicit false

namespace Lexwright

/-- The number behind `n`, or the last word of 32 bits if `n` is that word. -/
def Word.nextOrLast (n : Nat) : Nat := min (n + 1) (UInt32.size - 1)

/-- A segment that is made longer is still in order. -/
theorem Seg.first_le_max (s t : Seg) : s.first ≤ max s.last t.last :=
  Nat.le_trans s.first_le_last (Nat.le_max_left ..)

namespace Segments

variable {s t : Segments} {seg : Seg}

/-- The bounds of all segments are words of 32 bits. -/
def InWords (s : Segments) : Prop := ∀ x ∈ s.toList, x.last < UInt32.size

/-! ### The pass in words -/

/-- Joins the segments behind the one at hand to it, as long as they touch or overlap. `done` holds
the segments before the one at hand. -/
def joinFrom (done : Segments) (current : Seg) : List Seg → Segments
  | [] => done.insert current
  | t :: rest =>
    if Word.nextOrLast current.last < t.first then joinFrom (done.insert current) t rest
    else joinFrom done ⟨current.first, max current.last t.last, current.first_le_max t⟩ rest

/-- The same codepoints in segments that neither touch nor overlap. -/
def normalizeWords (s : Segments) : Segments :=
  match s.toList with
  | [] => s
  | first :: rest => joinFrom .empty first rest

/-- A word lies behind the next word exactly if it lies behind the next number. -/
theorem nextOrLast_lt_iff {m n : Nat} (hn : n < UInt32.size) :
    Word.nextOrLast m < n ↔ m + 1 < n := by
  unfold Word.nextOrLast
  omega

/-- The pass adds the joined segments to those that are done. -/
theorem mem_joinFrom {done : Segments} {current : Seg} {rest : List Seg}
    (h : ∀ x ∈ current :: rest, x.last < UInt32.size) :
    seg ∈ joinFrom done current rest ↔ seg ∈ coalesce (current :: rest) ∨ seg ∈ done := by
  -- The segment at hand is done, or it takes the next one in: just the two cases of `coalesce`.
  induction rest generalizing done current with
  | nil => simp [joinFrom, coalesce, SortedSet.mem_insert]
  | cons t rest ih =>
    simp only [List.forall_mem_cons] at h
    have ht := t.first_le_last
    have hgap : Word.nextOrLast current.last < t.first ↔ current.last + 1 < t.first :=
      nextOrLast_lt_iff (Nat.lt_of_le_of_lt ht h.2.1)
    rw [joinFrom, coalesce]
    by_cases hlt : current.last + 1 < t.first
    · rw [if_pos (hgap.2 hlt), if_pos hlt, ih (List.forall_mem_cons.2 h.2), SortedSet.mem_insert,
        List.mem_cons, ← or_assoc, or_comm (a := seg = current)]
    · rw [if_neg (fun h' => hlt (hgap.1 h')), if_neg hlt]
      exact ih (List.forall_mem_cons.2 ⟨Nat.max_lt.2 ⟨h.1, h.2.1⟩, h.2.2⟩)

/-- On words, the sum that stops at the last word joins the same segments. -/
theorem normalizeWords_eq (h : s.InWords) : s.normalizeWords = s.normalize := by
  refine SortedSet.ext fun x => ?_
  show x ∈ s.normalizeWords ↔ x ∈ coalesce s.toList
  unfold InWords at h
  cases hlist : s.toList with
  | nil => simp [normalizeWords, hlist, coalesce, ← SortedSet.mem_toList]
  | cons first rest =>
    rw [hlist] at h
    simp only [normalizeWords, hlist]
    rw [mem_joinFrom h, or_iff_left (SortedSet.not_mem_empty x)]

/-! ### The look-up in words -/

/-- Looks the codepoint up in the last of the segments that come before, or are, the greatest one
that can begin at it. -/
def containsWord (s : Segments) (code : Nat) : Bool :=
  match (s.toList.takeWhile fun x =>
    x.first < code ∨ x.first = code ∧ x.last ≤ UInt32.size - 1).getLast? with
  | some x => code ≤ x.last
  | none => false

/-- On words, a segment that ends at the last word or before it ends anywhere. -/
theorem takeWhile_words {segs : List Seg} (h : ∀ x ∈ segs, x.last < UInt32.size) (code : Nat) :
    segs.takeWhile (fun x => x.first < code ∨ x.first = code ∧ x.last ≤ UInt32.size - 1) =
      segs.takeWhile (·.first ≤ code) := by
  induction segs with
  | nil => rfl
  | cons x rest ih =>
    simp only [List.forall_mem_cons] at h
    have hsame : (x.first < code ∨ x.first = code ∧ x.last ≤ UInt32.size - 1) ↔ x.first ≤ code := by
      omega
    simp only [List.takeWhile_cons, hsame, ih h.2]

/-- On words, the look-up by a segment up to the last word is the look-up. -/
theorem containsWord_eq (h : s.InWords) (code : Nat) : s.containsWord code = s.contains code := by
  unfold containsWord
  rw [takeWhile_words h]
  rfl

/-! ### The canonical form -/

/-- Joining makes no end that was not there. -/
theorem InWords.normalize (h : s.InWords) : s.normalize.InWords := by
  intro x hx
  -- The last codepoint of a joined segment is one that the set covers.
  have hlast : s.normalize.Covers x.last := ⟨x, hx, x.first_le_last, Nat.le_refl _⟩
  obtain ⟨y, hy, -, hle⟩ := covers_normalize.1 hlast
  exact Nat.lt_of_le_of_lt hle (h y hy)

/-- What a set of words covers is a word. -/
theorem InWords.lt (h : s.InWords) {code : Nat} (hcode : s.Covers code) : code < UInt32.size := by
  obtain ⟨x, hx, -, hle⟩ := hcode
  exact Nat.lt_of_le_of_lt hle (h x hx)

/-- Normalized sets are equal just where the sets cover the same codepoints. -/
theorem normalize_eq_iff :
    s.normalize = t.normalize ↔ ∀ code, s.Covers code ↔ t.Covers code := by
  constructor
  · intro h code
    rw [← covers_normalize, h, covers_normalize]
  · intro h
    refine (isNormal_normalize s).ext (isNormal_normalize t) fun code => ?_
    rw [covers_normalize, covers_normalize, h]

/-- Words that are covered by one of two sets decide whether the sets cover the same. -/
theorem covers_congr_iff (hs : s.InWords) (ht : t.InWords) :
    (∀ code : UInt32, s.Covers code.toNat ↔ t.Covers code.toNat) ↔
      ∀ code, s.Covers code ↔ t.Covers code := by
  refine ⟨fun h code => ?_, fun h code => h code.toNat⟩
  have hword : code < UInt32.size → (s.Covers code ↔ t.Covers code) := fun hlt => by
    have := h (.ofNatLT code hlt)
    simpa using this
  exact ⟨fun hcode => (hword (hs.lt hcode)).1 hcode, fun hcode => (hword (ht.lt hcode)).2 hcode⟩

/-- Normalizing a set of words, whose segments may overlap, lie in each other or touch, never leaves
the words. It keeps the codepoints, and leaves a gap between any two segments, which are in order.
Two sets have one normal form exactly if they cover the same codepoints, and the look-up in the
normal form finds exactly the codepoints of the set. -/
theorem normalize_exact (hs : s.InWords) (ht : t.InWords) :
    s.normalizeWords = s.normalize ∧ s.normalize.InWords ∧
      (∀ code : UInt32, s.normalize.Covers code.toNat ↔ s.Covers code.toNat) ∧
      s.normalize.toList.Pairwise (fun a b => a.last + 1 < b.first) ∧
      (s.normalize = t.normalize ↔ ∀ code : UInt32, s.Covers code.toNat ↔ t.Covers code.toNat) ∧
      ∀ code : UInt32, s.normalize.containsWord code.toNat = true ↔ s.Covers code.toNat := by
  refine ⟨normalizeWords_eq hs, hs.normalize, fun code => covers_normalize, isNormal_normalize s,
    ?_, fun code => ?_⟩
  · rw [normalize_eq_iff, covers_congr_iff hs ht]
  · rw [containsWord_eq hs.normalize, contains_iff_covers (isNormal_normalize s), covers_normalize]

/-- Segments that lie in each other, touch and overlap, up to the last word. -/
def nested : Segments where
  toList := [⟨0, 9, by decide⟩, ⟨2, 4, by decide⟩, ⟨10, 12, by decide⟩, ⟨20, 20, by decide⟩,
    ⟨0xfffffff0, 0xffffffff, by decide⟩, ⟨0xffffffff, 0xffffffff, by decide⟩]
  increasing := by decide

/-- The codepoints of `nested` in other segments. -/
def spread : Segments where
  toList := [⟨0, 3, by decide⟩, ⟨0, 12, by decide⟩, ⟨20, 20, by decide⟩,
    ⟨0xfffffff0, 0xfffffffe, by decide⟩, ⟨0xffffffff, 0xffffffff, by decide⟩]
  increasing := by decide

/-- The two sets have one normal form, in which the last word is found, and 13 is not. -/
theorem normalize_exact_nested :
    nested.InWords ∧ spread.InWords ∧ nested.normalizeWords = spread.normalizeWords ∧
      nested.normalize.containsWord 0xffffffff = true ∧
      nested.normalize.containsWord 13 = false := by
  have hnested : nested.InWords := by
    unfold InWords
    decide
  have hspread : spread.InWords := by
    unfold InWords
    decide
  obtain ⟨hwords, -, -, -, heq, hcontains⟩ := normalize_exact hnested hspread
  obtain ⟨hwords', -⟩ := normalize_exact hspread hnested
  refine ⟨hnested, hspread, ?_, ?_, ?_⟩
  · rw [hwords, hwords', heq]
    intro code
    have := code.toNat_lt
    simp only [Covers, nested, spread, List.mem_cons, List.not_mem_nil, or_false, exists_eq_or_imp,
      exists_eq_left, Seg.Covers]
    omega
  · exact (hcontains 0xffffffff).2 (covers_iff.1 (by decide))
  · rw [← Bool.not_eq_true]
    exact fun h => absurd (covers_iff.2 ((hcontains 13).1 h)) (by decide)

end Segments

end Lexwright

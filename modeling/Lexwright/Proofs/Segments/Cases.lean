import Lexwright.Proofs.Pattern.Resolve
import Lexwright.Proofs.Segments.Complement
import Lexwright.Proofs.Text.CaseMap

/-!
# `Lexwright.Proofs.Segments.Cases`: how far one expansion by letter case reaches

`withCaseVariants` adds the images of the characters of a set, and takes no image of these images.
`CaseClosed` says that the images of all the covered codepoints are covered. One expansion gives
such a set unless one of the 27 characters in `remoteImages` was covered, and the image of its image
was not (`caseClosed_withCaseVariants_iff`). A second expansion always gives one
(`caseClosed_withCaseVariants_twice`).

* `withCaseVariants_eq_self_iff`: on normalized sets, to be closed is to be left as it is.
* `withCaseVariants_reach`: how far one expansion, two and three of them reach.
-/

set_option autoImplicit false

namespace Lexwright.Segments

open Text

variable {s : Segments} {code : Nat}

/-- The images of the covered codepoints are covered. -/
def CaseClosed (s : Segments) : Prop :=
  ∀ code, s.Covers code → ∀ image ∈ caseVariants code, s.Covers image

/-- What is covered stays covered. -/
theorem covers_withCaseVariants_of_covers (h : s.Covers code) : s.withCaseVariants.Covers code :=
  covers_withCaseVariants.2 (Or.inl h)

/-- The images of what is covered are covered. -/
theorem covers_withCaseVariants_of_mem {image : Nat} (h : s.Covers code)
    (himage : image ∈ caseVariants code) : s.withCaseVariants.Covers image :=
  covers_withCaseVariants.2 (Or.inr ⟨code, h, himage⟩)

/-- A set stays as it is exactly if it has the images of all its codepoints. -/
theorem withCaseVariants_eq_self_iff (h : s.IsNormal) : s.withCaseVariants = s ↔ s.CaseClosed := by
  constructor
  · intro heq code hcode image himage
    rw [← heq]
    exact covers_withCaseVariants_of_mem hcode himage
  · intro hclosed
    refine (isNormal_withCaseVariants s).ext h fun code => ?_
    rw [covers_withCaseVariants]
    refine or_iff_left_of_imp ?_
    intro ⟨other, hother, himage⟩
    exact hclosed other hother code himage

/-- A second expansion adds the far ends of the list whose characters the set covers. -/
theorem covers_withCaseVariants_twice :
    s.withCaseVariants.withCaseVariants.Covers code ↔
      s.withCaseVariants.Covers code ∨ ∃ r ∈ remoteImages, s.Covers r.code ∧ r.far = code := by
  constructor
  · intro h
    rcases covers_withCaseVariants.1 h with honce | ⟨image, himage, hcode⟩
    · exact Or.inl honce
    · -- The codepoint is the image of a codepoint of the set, or the image of such an image.
      rcases covers_withCaseVariants.1 himage with hs | ⟨other, hother, hvariant⟩
      · exact Or.inl (covers_withCaseVariants_of_mem hs hcode)
      · rcases image_of_image hvariant hcode with heq | hnear | ⟨r, hr, hrcode, hfar⟩
        · left
          rw [heq]
          exact covers_withCaseVariants_of_covers hother
        · exact Or.inl (covers_withCaseVariants_of_mem hother hnear)
        · right
          exact ⟨r, hr, by rw [hrcode]; exact hother, hfar⟩
  · rintro (honce | ⟨r, hr, hs, hfar⟩)
    · exact covers_withCaseVariants_of_covers honce
    · obtain ⟨himage, hremote, -⟩ := remoteImages_spec r hr
      rw [← hfar]
      exact covers_withCaseVariants_of_mem (covers_withCaseVariants_of_mem hs himage) hremote

/-- A second expansion adds nothing exactly if the first one has added the images that are two steps
away. -/
theorem withCaseVariants_twice_eq_iff :
    s.withCaseVariants.withCaseVariants = s.withCaseVariants ↔
      ∀ r ∈ remoteImages, s.Covers r.code → s.withCaseVariants.Covers r.far := by
  constructor
  · intro heq r hr hs
    rw [← heq]
    exact covers_withCaseVariants_twice.2 (Or.inr ⟨r, hr, hs, rfl⟩)
  · intro h
    refine (isNormal_withCaseVariants _).ext (isNormal_withCaseVariants s) fun code => ?_
    rw [covers_withCaseVariants_twice]
    refine or_iff_left_of_imp ?_
    rintro ⟨r, hr, hs, rfl⟩
    exact h r hr hs

/-- The expansion holds the images of all its characters where it holds those far ends. -/
theorem caseClosed_withCaseVariants_iff :
    s.withCaseVariants.CaseClosed ↔
      ∀ r ∈ remoteImages, s.Covers r.code → s.withCaseVariants.Covers r.far := by
  rw [← withCaseVariants_eq_self_iff (isNormal_withCaseVariants s), withCaseVariants_twice_eq_iff]

/-- An expansion covers a character of the list only if the set did. -/
theorem covers_of_remoteImages {r : RemoteImage} (hr : r ∈ remoteImages)
    (h : s.withCaseVariants.Covers r.code) : s.Covers r.code := by
  rcases covers_withCaseVariants.1 h with hs | ⟨other, -, himage⟩
  · exact hs
  · exact absurd rfl (not_remote_of_mem_caseVariants himage r hr)

/-- Nothing is missing after the second expansion. -/
theorem caseClosed_withCaseVariants_twice : s.withCaseVariants.withCaseVariants.CaseClosed := by
  rw [caseClosed_withCaseVariants_iff]
  intro r hr honce
  exact covers_withCaseVariants_twice.2 (Or.inr ⟨r, hr, covers_of_remoteImages hr honce, rfl⟩)

/-- The expansion of one character is closed unless the character is in the list. -/
theorem caseClosed_ofChar_iff {c : Char} :
    (ofChar c).withCaseVariants.CaseClosed ↔ ∀ r ∈ remoteImages, r.code ≠ c.toNat := by
  simp only [caseClosed_withCaseVariants_iff, covers_withCaseVariants, covers_ofChar,
    exists_eq_left]
  constructor
  · intro h r hr hcode
    obtain ⟨-, -, hne, hnot⟩ := remoteImages_spec r hr
    rw [← hcode] at h
    exact (h r hr rfl).elim hne hnot
  · intro h r hr hcode
    exact absurd hcode (h r hr)

/-- For a character, the complement covers it exactly if the set does not. -/
theorem covers_complement_char (h : s.IsNormal) (hs : s.Scalars) (c : Char) :
    s.complement.Covers c.toNat ↔ ¬s.Covers c.toNat := by
  rw [covers_complement h hs.bounded]
  exact and_iff_right c.valid

/-- One expansion covers the codepoints of the set and their images, and nothing else. A second one
changes nothing exactly if the first one covers the image of the image of each character of
`remoteImages` in the set, and exactly if the first one has the images of all that it covers. A
third one never changes anything. So, without letter case, the set of a literal's character has the
images of all its members unless the character is in the list, and the set of a character list has
them if it has the images of images for what is written in it. A negated list has the characters that
are not in the expansion of what is written. -/
theorem withCaseVariants_reach (s : Segments) (labels : Labels) (limit : Nat)
    (ranges : List (Char × Char)) (c : Char) :
    (∀ code, s.withCaseVariants.Covers code ↔
        s.Covers code ∨ ∃ other, s.Covers other ∧ code ∈ caseVariants other) ∧
      (s.withCaseVariants.withCaseVariants = s.withCaseVariants ↔
        ∀ r ∈ remoteImages, s.Covers r.code → s.withCaseVariants.Covers r.far) ∧
      (s.withCaseVariants.withCaseVariants = s.withCaseVariants ↔ s.withCaseVariants.CaseClosed) ∧
      s.withCaseVariants.withCaseVariants.withCaseVariants =
        s.withCaseVariants.withCaseVariants ∧
      ((Scope.charSet ⟨labels, limit, true⟩ c).CaseClosed ↔
        ∀ r ∈ remoteImages, r.code ≠ c.toNat) ∧
      ((Scope.classSet ⟨labels, limit, true⟩ false ranges).CaseClosed ↔
        ∀ r ∈ remoteImages, (Scope.listed ranges).Covers r.code →
          (Scope.classSet ⟨labels, limit, true⟩ false ranges).Covers r.far) ∧
      ∀ read : Char, (Scope.classSet ⟨labels, limit, true⟩ true ranges).Covers read.toNat ↔
        ¬(Scope.listed ranges).withCaseVariants.Covers read.toNat := by
  have hclosed := withCaseVariants_eq_self_iff (isNormal_withCaseVariants s.withCaseVariants)
  refine ⟨fun code => covers_withCaseVariants, withCaseVariants_twice_eq_iff,
    withCaseVariants_eq_self_iff (isNormal_withCaseVariants s),
    hclosed.2 caseClosed_withCaseVariants_twice, caseClosed_ofChar_iff,
    caseClosed_withCaseVariants_iff, fun read => ?_⟩
  exact covers_complement_char (isNormal_withCaseVariants _)
    (Scope.regular_listed ranges).scalars.withCaseVariants read

/-- One character is listed for the characters that may be read for it. -/
theorem listed_self_iff {ignoreCase : Bool} {written read : Char} :
    Listed ignoreCase [(written, written)] read ↔ StandsFor ignoreCase written read := by
  unfold Listed
  simp only [List.mem_singleton, exists_eq_left]
  constructor
  · intro ⟨other, hfirst, hlast, h⟩
    rw [Char.toNat_inj.1 (Nat.le_antisymm hfirst hlast)]
    exact h
  · intro h
    exact ⟨written, Nat.le_refl _, Nat.le_refl _, h⟩

/-- The long s has the image S, and the usual s comes with the second expansion only. The list of
all characters but s, without letter case, has the long s and does not have its image. -/
theorem withCaseVariants_long_s :
    (ofChar 'ſ').Scalars ∧ 'S'.toNat ∈ caseVariants 'ſ'.toNat ∧
      (ofChar 'ſ').withCaseVariants.Covers 'S'.toNat ∧
      ¬(ofChar 'ſ').withCaseVariants.Covers 's'.toNat ∧
      (ofChar 'ſ').withCaseVariants.withCaseVariants.Covers 's'.toNat ∧
      (ofChar 'ſ').withCaseVariants.withCaseVariants ≠ (ofChar 'ſ').withCaseVariants ∧
      (Scope.classSet ⟨∅, 0, true⟩ true [('s', 's')]).Covers 'ſ'.toNat ∧
      ¬(Scope.classSet ⟨∅, 0, true⟩ true [('s', 's')]).Covers 'S'.toNat := by
  -- The long s has the capital as its variant, and only the capital has the small letter.
  have hS : 'S'.toNat ∈ caseVariants 'ſ'.toNat := hasImage_iff.1 (by decide +kernel)
  have hs : 's'.toNat ∈ caseVariants 'S'.toNat := hasImage_iff.1 (by decide +kernel)
  have hback : 'S'.toNat ∈ caseVariants 's'.toNat := hasImage_iff.1 (by decide +kernel)
  have hfar : 's'.toNat ∉ caseVariants 'ſ'.toNat := by
    rw [← hasImage_iff]
    decide +kernel
  have hlong : 'ſ'.toNat ∉ caseVariants 's'.toNat := by
    rw [← hasImage_iff]
    decide +kernel
  have honce : (ofChar 'ſ').withCaseVariants.Covers 'S'.toNat :=
    covers_withCaseVariants_of_mem ((covers_ofChar 'ſ').2 rfl) hS
  have hnot : ¬(ofChar 'ſ').withCaseVariants.Covers 's'.toNat := by
    simp only [covers_withCaseVariants, covers_ofChar, exists_eq_left, not_or]
    exact ⟨by decide, hfar⟩
  have htwice : (ofChar 'ſ').withCaseVariants.withCaseVariants.Covers 's'.toNat :=
    covers_withCaseVariants_of_mem honce hs
  refine ⟨scalars_ofChar 'ſ', hS, honce, hnot, htwice, fun heq => hnot (heq ▸ htwice), ?_, ?_⟩
  · rw [Scope.covers_classSet, listed_self_iff]
    simpa [StandsFor] using hlong
  · rw [Scope.covers_classSet, listed_self_iff]
    simpa [StandsFor] using hback

end Lexwright.Segments

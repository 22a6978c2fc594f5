import Lexwright.Text.CaseMap

/-!
# `Lexwright.Proofs.Text.CaseMap`: images of images

A character may have an image in the other letter case that does not lead back to it. The long s has
the image S, and the image of S is the usual s, which is no image of the long s. There are 27
characters of this kind, and each has one such image of an image.

* `CaseRun.image?`, `mem_pairs_iff`: the image that a run has for one codepoint.
* `remoteImages`: the 27 characters with their image and the image of that.
* `image_of_image`: whatever is the image of an image and not in the list is the codepoint itself or
  one of its images. No image begins a line of the list (`not_remote_of_mem_caseVariants`).

A table of 383 runs is compared with itself here. The runs are taken in pieces, so that a run has to
be compared with those runs only whose piece it leads to.
-/

set_option autoImplicit false

namespace Lexwright.Text

/-! ### The image of one codepoint -/

namespace CaseRun

variable {run next : CaseRun} {a b c : Nat}

/-- The image of a codepoint, if it lies in the run. -/
def image? (run : CaseRun) (code : Nat) : Option Nat :=
  if Nat.ble run.first code && (Nat.ble code run.last &&
    Nat.beq ((code - run.first) % run.step) 0) then some (code + run.distance).toNat
  else none

/-- A run has images for the members of its progression, all moved by one distance. -/
theorem image?_eq_some_iff : run.image? a = some b ↔
    run.first ≤ a ∧ a ≤ run.last ∧ (a - run.first) % run.step = 0 ∧
      b = (a + run.distance).toNat := by
  simp only [image?, Option.ite_none_right_eq_some, Bool.and_eq_true, Nat.ble_eq, Nat.beq_eq,
    Option.some.injEq, and_assoc, eq_comm (a := b)]

/-- The pairs of a run hold the codepoints in it with their images. -/
theorem mem_pairs_iff (h : run.first ≤ run.last) : (a, b) ∈ run.pairs ↔ run.image? a = some b := by
  simp only [image?_eq_some_iff, pairs, List.mem_map, List.mem_range, Prod.mk.injEq]
  constructor
  · rintro ⟨i, hi, rfl, rfl⟩
    have hle : i * run.step ≤ run.last - run.first :=
      Nat.le_trans (Nat.mul_le_mul_right _ (Nat.le_of_lt_succ hi)) (Nat.div_mul_le_self _ _)
    refine ⟨by omega, by omega, ?_, rfl⟩
    rw [Nat.add_sub_cancel_left, Nat.mul_mod_left]
  · rintro ⟨hfirst, hlast, hstep, rfl⟩
    have hcode : run.first + (a - run.first) / run.step * run.step = a := by
      rw [Nat.div_mul_cancel (Nat.dvd_of_mod_eq_zero hstep)]
      omega
    refine ⟨(a - run.first) / run.step, ?_, hcode, by rw [hcode]⟩
    exact Nat.lt_succ_of_le (Nat.div_le_div_right (Nat.sub_le_sub_right hlast _))

end CaseRun

/-- No run of the table is empty. -/
theorem first_le_last : ∀ run ∈ caseRuns, run.first ≤ run.last := by
  decide +kernel

/-- Whether one of the runs has the image for the codepoint. -/
def hasImage (code image : Nat) : Bool := caseRuns.any fun run => run.image? code == some image

/-- The images of a codepoint are those that some run has for it. -/
theorem mem_caseVariants_iff {code image : Nat} :
    image ∈ caseVariants code ↔ ∃ run ∈ caseRuns, run.image? code = some image := by
  have hpairs : image ∈ caseVariants code ↔ ∃ run ∈ caseRuns, (code, image) ∈ run.pairs := by
    simp only [caseVariants, casePairs, List.mem_map, List.mem_filter, List.mem_flatMap,
      decide_eq_true_eq]
    constructor
    · rintro ⟨p, ⟨⟨run, hrun, hp⟩, rfl⟩, rfl⟩
      exact ⟨run, hrun, hp⟩
    · rintro ⟨run, hrun, hp⟩
      exact ⟨_, ⟨⟨run, hrun, hp⟩, rfl⟩, rfl⟩
  rw [hpairs]
  exact exists_congr fun run => and_congr_right fun hrun =>
    CaseRun.mem_pairs_iff (first_le_last run hrun)

/-- The test by the runs says which images a codepoint has. -/
theorem hasImage_iff {code image : Nat} : hasImage code image = true ↔ image ∈ caseVariants code := by
  simp [hasImage, mem_caseVariants_iff]

/-! ### The characters whose image leads elsewhere -/

/-- A character, its image, and the image of this image, which is neither the character nor one of
its images. -/
structure RemoteImage where
  code : Nat
  image : Nat
  far : Nat
deriving DecidableEq, Repr

/-- The characters whose image leads elsewhere. Among them are the micro sign, the dotless i, the
long s, the final sigma, other forms of Greek and Cyrillic letters, and the signs for ohm, kelvin
and angstrom. -/
def remoteImages : List RemoteImage := [
  ⟨0xb5, 0x39c, 0x3bc⟩, ⟨0x131, 0x49, 0x69⟩, ⟨0x17f, 0x53, 0x73⟩, ⟨0x345, 0x399, 0x3b9⟩,
  ⟨0x3c2, 0x3a3, 0x3c3⟩, ⟨0x3d0, 0x392, 0x3b2⟩, ⟨0x3d1, 0x398, 0x3b8⟩, ⟨0x3d5, 0x3a6, 0x3c6⟩,
  ⟨0x3d6, 0x3a0, 0x3c0⟩, ⟨0x3f0, 0x39a, 0x3ba⟩, ⟨0x3f1, 0x3a1, 0x3c1⟩, ⟨0x3f4, 0x3b8, 0x398⟩,
  ⟨0x3f5, 0x395, 0x3b5⟩, ⟨0x1c80, 0x412, 0x432⟩, ⟨0x1c81, 0x414, 0x434⟩, ⟨0x1c82, 0x41e, 0x43e⟩,
  ⟨0x1c83, 0x421, 0x441⟩, ⟨0x1c84, 0x422, 0x442⟩, ⟨0x1c85, 0x422, 0x442⟩, ⟨0x1c86, 0x42a, 0x44a⟩,
  ⟨0x1c87, 0x462, 0x463⟩, ⟨0x1c88, 0xa64a, 0xa64b⟩, ⟨0x1e9b, 0x1e60, 0x1e61⟩,
  ⟨0x1fbe, 0x399, 0x3b9⟩, ⟨0x2126, 0x3c9, 0x3a9⟩, ⟨0x212a, 0x6b, 0x4b⟩, ⟨0x212b, 0xe5, 0xc5⟩]

/-- The list says what it should: each of its lines has an image and the image of that, and this one
is not found at the character itself. -/
theorem remoteImages_spec : ∀ r ∈ remoteImages,
    r.image ∈ caseVariants r.code ∧ r.far ∈ caseVariants r.image ∧
      r.far ≠ r.code ∧ r.far ∉ caseVariants r.code := by
  have hlist : (remoteImages.all fun r => hasImage r.code r.image && (hasImage r.image r.far &&
      (!Nat.beq r.far r.code && !hasImage r.code r.far))) = true := by
    decide +kernel
  intro r hr
  have := List.all_eq_true.1 hlist r hr
  simpa [hasImage_iff, ← Bool.not_eq_true] using this

/-! ### A run behind another one -/

namespace CaseRun

variable {run next : CaseRun} {a b c first last : Nat}

/-- Whether no image of the run lies from `first` to `last`, because all lie on one side. -/
def avoids (run : CaseRun) (first last : Nat) : Bool :=
  Nat.blt (run.last + run.distance).toNat first || Nat.blt last (run.first + run.distance).toNat

/-- A run with an image between two bounds does not avoid them. -/
theorem not_avoids (h : run.image? a = some b) (hfirst : first ≤ b) (hlast : b ≤ last) :
    ¬run.avoids first last = true := by
  simp only [image?_eq_some_iff] at h
  simp only [avoids, Bool.or_eq_true, Nat.blt_eq]
  omega

/-- Whether the images of images by the two runs are accounted for: the second run does not meet the
first one, or leads back, or all that it leads to is found. -/
def settles (run next : CaseRun) : Bool :=
  run.avoids next.first next.last ||
    (decide (run.distance + next.distance = 0) && decide (0 ≤ run.first + run.distance)) ||
    run.pairs.all fun p => match next.image? p.2 with
      | none => true
      | some far => Nat.beq far p.1 ||
        (remoteImages.any fun r => Nat.beq r.code p.1 && Nat.beq r.far far) || hasImage p.1 far

/-- Two runs that settle each other lead back, to an image, or to an image that is listed as
remote. -/
theorem of_settles (h : run.settles next = true) (hrun : run.first ≤ run.last)
    (hb : run.image? a = some b) (hc : next.image? b = some c) :
    c = a ∨ c ∈ caseVariants a ∨ ∃ r ∈ remoteImages, r.code = a ∧ r.far = c := by
  simp only [settles, Bool.or_eq_true, Bool.and_eq_true, decide_eq_true_eq] at h
  rcases h with (havoids | hback) | hall
  · have hnext := image?_eq_some_iff.1 hc
    exact absurd havoids (not_avoids hb hnext.1 hnext.2.1)
  · left
    simp only [image?_eq_some_iff] at hb hc
    omega
  · have hpair := List.all_eq_true.1 hall _ ((mem_pairs_iff hrun).2 hb)
    simp only [hc, Bool.or_eq_true, Nat.beq_eq, List.any_eq_true, Bool.and_eq_true,
      hasImage_iff] at hpair
    rcases hpair with (heq | hremote) | himage
    · exact Or.inl heq
    · exact Or.inr (Or.inr hremote)
    · exact Or.inr (Or.inl himage)

end CaseRun

/-! ### All the runs -/

/-- The list in pieces of at most `n + 1` members. -/
def pieces {α : Type} (n : Nat) : List α → List (List α)
  | [] => []
  | a :: rest =>
    match pieces n rest with
    | [] => [[a]]
    | piece :: others =>
      if Nat.ble piece.length n then (a :: piece) :: others else [a] :: piece :: others

/-- The pieces of a list are the list again. -/
theorem flatten_pieces {α : Type} (n : Nat) (l : List α) : (pieces n l).flatten = l := by
  induction l with
  | nil => rfl
  | cons a rest ih =>
    unfold pieces
    split
    · rename_i hnil
      rw [hnil] at ih
      simp [← ih]
    · rename_i piece others hcons
      rw [hcons] at ih
      split
      · simp [← ih]
      · simp [← ih]

/-- The least first and the greatest last codepoint of some runs. -/
def hull (runs : List CaseRun) : Nat × Nat :=
  runs.foldr (fun run h => (min run.first h.1, max run.last h.2)) (0x10ffff, 0)

/-- All the runs lie within their hull. -/
theorem hull_spec {runs : List CaseRun} {run : CaseRun} (h : run ∈ runs) :
    (hull runs).1 ≤ run.first ∧ run.last ≤ (hull runs).2 := by
  induction runs with
  | nil => exact absurd h List.not_mem_nil
  | cons other runs ih =>
    show min other.first (hull runs).1 ≤ _ ∧ _ ≤ max other.last (hull runs).2
    rcases List.mem_cons.1 h with rfl | h
    · exact ⟨Nat.min_le_left .., Nat.le_max_left ..⟩
    · have := ih h
      omega

/-- Every run settles every other one, or avoids all the runs of its piece. -/
theorem settles_or_avoids : (caseRuns.all fun run => (pieces 9 caseRuns).all fun piece =>
    run.avoids (hull piece).1 (hull piece).2 || piece.all run.settles) = true := by
  decide +kernel

/-- The image of an image is the codepoint itself or one of its images, unless it is in the list. -/
theorem image_of_image {code image far : Nat} (himage : image ∈ caseVariants code)
    (hfar : far ∈ caseVariants image) :
    far = code ∨ far ∈ caseVariants code ∨ ∃ r ∈ remoteImages, r.code = code ∧ r.far = far := by
  rw [mem_caseVariants_iff] at himage hfar
  obtain ⟨run, hrun, himage⟩ := himage
  obtain ⟨next, hnext, hfar⟩ := hfar
  obtain ⟨piece, hpiece, hmem⟩ := List.mem_flatten.1 ((flatten_pieces 9 caseRuns).symm ▸ hnext)
  have hall := List.all_eq_true.1 (List.all_eq_true.1 settles_or_avoids run hrun) piece hpiece
  have hsettles : run.settles next = true := by
    rcases (Bool.or_eq_true ..).mp hall with havoids | hsettles
    · have hwithin := CaseRun.image?_eq_some_iff.1 hfar
      have hhull := hull_spec hmem
      exact absurd havoids (CaseRun.not_avoids himage (by omega) (by omega))
    · exact List.all_eq_true.1 hsettles next hmem
  exact CaseRun.of_settles hsettles (first_le_last run hrun) himage hfar

/-- No image is a character of the list. -/
theorem not_remote_of_mem_caseVariants {code image : Nat} (h : image ∈ caseVariants code) :
    ∀ r ∈ remoteImages, r.code ≠ image := by
  have hlist : (caseRuns.all fun run => remoteImages.all fun r => run.avoids r.code r.code ||
      run.pairs.all fun p => !Nat.beq p.2 r.code) = true := by
    decide +kernel
  intro r hr heq
  rw [mem_caseVariants_iff] at h
  obtain ⟨run, hrun, himage⟩ := h
  have hall := List.all_eq_true.1 (List.all_eq_true.1 hlist run hrun) r hr
  rcases (Bool.or_eq_true ..).mp hall with havoids | hpairs
  · exact CaseRun.not_avoids himage (Nat.le_of_eq heq) (Nat.le_of_eq heq.symm) havoids
  · have := List.all_eq_true.1 hpairs _ ((CaseRun.mem_pairs_iff (first_le_last run hrun)).2 himage)
    simp [heq] at this

end Lexwright.Text

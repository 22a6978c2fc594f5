import Mathlib.Data.List.Sort
import Lexwright.Proofs.CharClass.Membership

/-!
# `Lexwright.Proofs.CharClass.Bits`: the bits of a set are those of its codepoints

The ASCII word and the pages are filled segment by segment. What comes out does not depend on how
the segments cut the set: a page is there if and only if a codepoint of it is, and its bits are
those of its codepoints.

* `pageHolds_iff`: which bits the pages of a set hold.
* `nonzero_pageBits`: no page without bits is kept.
* `bits_eq_iff`: two sets have the same bits exactly when they cover the same codepoints.
-/

set_option autoImplicit false

namespace Lexwright

open Text

variable {s t : Segments} {seg : Seg} {pages pages' : List (Nat × Page)} {p b : Nat}

/-! ### The bits of a segment -/

/-- Some bit of the page is set. -/
def Page.Nonzero (bits : Page) : Prop := ∃ b, bits.getLsbD b = true

/-- The bits of a run are bits of a page, and those of codepoints from 128 on. -/
theorem le_of_mem_pageRuns {run : Nat × Page} (hlast : seg.last ≤ maxCode)
    (hrun : run ∈ seg.pageRuns)
    (hbit : run.2.getLsbD b = true) : b < 256 ∧ 128 ≤ 256 * run.1 + b := by
  unfold maxCode at hlast
  obtain ⟨page, hlow, hhigh, -, rfl⟩ := mem_pageRuns_iff.1 hrun
  obtain ⟨hb, hfirst, -⟩ := (getLsbD_pageRun hlow hhigh).1 hbit
  have hsmall : page % 65536 = page := Nat.mod_eq_of_lt (by omega)
  refine ⟨hb, ?_⟩
  show 128 ≤ 256 * (page % 65536) + b
  rw [hsmall]
  omega

/-- Every run sets its first bit at least. -/
theorem nonzero_of_mem_pageRuns {run : Nat × Page} (hrun : run ∈ seg.pageRuns) :
    run.2.Nonzero := by
  obtain ⟨page, hlow, hhigh, hle, rfl⟩ := mem_pageRuns_iff.1 hrun
  exact ⟨max seg.first 128 - 256 * page,
    (getLsbD_pageRun hlow hhigh).2 ⟨by omega, by omega, by omega⟩⟩

/-! ### The pages of a set -/

/-- Adding bits to a page clears none of them. -/
theorem nonzero_addPage {page : Nat} {bits : Page} (hbits : bits.Nonzero)
    (h : ∀ x ∈ pages, x.2.Nonzero) : ∀ x ∈ addPage page bits pages, x.2.Nonzero := by
  induction pages with
  | nil => exact List.forall_mem_cons.2 ⟨hbits, h⟩
  | cons head rest ih =>
    obtain ⟨q, old⟩ := head
    obtain ⟨hhead, hrest⟩ := List.forall_mem_cons.1 h
    unfold addPage
    split
    · exact List.forall_mem_cons.2 ⟨hbits, h⟩
    · split
      · -- Bits that are added to a page do not clear others.
        refine List.forall_mem_cons.2 ⟨?_, hrest⟩
        obtain ⟨b, hb⟩ := hhead
        exact ⟨b, by rw [BitVec.getLsbD_or, hb, Bool.true_or]⟩
      · exact List.forall_mem_cons.2 ⟨hhead, ih hrest⟩

/-- No page without bits is kept. -/
theorem nonzero_pageBits (segs : List Seg) : ∀ x ∈ pageBits segs, x.2.Nonzero := by
  have hruns : ∀ run ∈ segs.flatMap Seg.pageRuns, run.2.Nonzero := fun run hrun => by
    obtain ⟨seg, -, hrun⟩ := List.mem_flatMap.1 hrun
    exact nonzero_of_mem_pageRuns hrun
  unfold pageBits
  generalize segs.flatMap Seg.pageRuns = runs at hruns ⊢
  induction runs with
  | nil => exact fun x hx => absurd hx List.not_mem_nil
  | cons run rest ih =>
    obtain ⟨hrun, hrest⟩ := List.forall_mem_cons.1 hruns
    exact nonzero_addPage hrun (ih hrest)

/-- The pages of a set hold the bits of the codepoints from 128 on that the set covers. -/
theorem pageHolds_iff (hs : ∀ seg ∈ s.toList, seg.last ≤ maxCode) :
    PageHolds (pageBits s.toList) p b ↔ b < 256 ∧ 128 ≤ 256 * p + b ∧ s.Covers (256 * p + b) := by
  have hcode : ∀ {b : Nat}, b < 256 → (256 * p + b) / 256 = p ∧ (256 * p + b) % 256 = b := by
    intro b hb
    omega
  rw [pageHolds_pageBits]
  constructor
  · rintro ⟨seg, hseg, run, hrun, rfl, hbit⟩
    obtain ⟨hb, hlow⟩ := le_of_mem_pageRuns (hs seg hseg) hrun hbit
    obtain ⟨hpage, hmod⟩ := hcode hb
    exact ⟨hb, hlow, seg, hseg, (exists_pageRuns (hs seg hseg) hlow).1
      ⟨run, hrun, hpage.symm, by rw [hmod]; exact hbit⟩⟩
  · rintro ⟨hb, hlow, seg, hseg, hcovers⟩
    obtain ⟨run, hrun, hpage, hbit⟩ := (exists_pageRuns (hs seg hseg) hlow).2 hcovers
    obtain ⟨hpage', hmod⟩ := hcode hb
    rw [hpage'] at hpage
    rw [hmod] at hbit
    exact ⟨seg, hseg, run, hrun, hpage, hbit⟩

/-- A page of an increasing list holds its own bits only. -/
theorem pageHolds_of_mem (hincr : PagesIncrease pages) {bits : Page} (hmem : (p, bits) ∈ pages) :
    PageHolds pages p b ↔ bits.getLsbD b = true := by
  constructor
  · rintro ⟨bits', hmem', hbit⟩
    have hsame : (p, bits') = (p, bits) :=
      List.Pairwise.forall_of_forall_of_flip (R := fun x y => x.1 = y.1 → x = y) (fun _ _ _ => rfl)
        (hincr.imp fun hlt heq => absurd heq (Nat.ne_of_lt hlt))
        (hincr.imp fun hlt heq => absurd heq.symm (Nat.ne_of_lt hlt)) hmem' hmem rfl
    cases hsame
    exact hbit
  · intro hbit
    exact ⟨bits, hmem, hbit⟩

/-- Increasing pages, none of them without bits, are determined by the bits that they hold. -/
theorem eq_of_pageHolds_iff (hincr : PagesIncrease pages) (hincr' : PagesIncrease pages')
    (hnonzero : ∀ x ∈ pages, x.2.Nonzero) (hnonzero' : ∀ x ∈ pages', x.2.Nonzero)
    (h : ∀ p b, PageHolds pages p b ↔ PageHolds pages' p b) : pages = pages' := by
  have hsub : ∀ {as bs : List (Nat × Page)}, PagesIncrease as → PagesIncrease bs →
      (∀ x ∈ as, x.2.Nonzero) → (∀ p b, PageHolds as p b ↔ PageHolds bs p b) →
      ∀ x ∈ as, x ∈ bs := by
    rintro as bs has hbs hne hsame ⟨p, bits⟩ hx
    -- A bit of the page is held by the other list, so the page is there, with the same bits.
    obtain ⟨b, hb⟩ := hne _ hx
    obtain ⟨bits', hx', -⟩ := (hsame p b).1 ⟨bits, hx, hb⟩
    have hbits : bits = bits' := by
      refine BitVec.eq_of_getLsbD_eq fun i _ => Bool.eq_iff_iff.2 ?_
      rw [← pageHolds_of_mem has hx, ← pageHolds_of_mem hbs hx']
      exact hsame p i
    rw [hbits]
    exact hx'
  have hirrefl : Std.Irrefl fun a b : Nat × Page => a.1 < b.1 := ⟨fun a => Nat.lt_irrefl a.1⟩
  have hantisymm : Std.Antisymm fun a b : Nat × Page => a.1 < b.1 :=
    ⟨fun a b hab hba => absurd hba (Nat.lt_asymm hab)⟩
  exact hincr.eq_of_mem_iff hincr' fun x => ⟨hsub hincr hincr' hnonzero h x,
    hsub hincr' hincr hnonzero' (fun p b => (h p b).symm) x⟩

/-! ### The bits of a set -/

/-- Two sets have the same bits exactly when they cover the same codepoints, however these are
split into segments. -/
theorem bits_eq_iff (hs : ∀ seg ∈ s.toList, seg.last ≤ maxCode)
    (ht : ∀ seg ∈ t.toList, seg.last ≤ maxCode) :
    asciiBits s.toList = asciiBits t.toList ∧ pageBits s.toList = pageBits t.toList ↔
      ∀ code, s.Covers code ↔ t.Covers code := by
  constructor
  · rintro ⟨hascii, hpages⟩ code
    by_cases hlow : code < 128
    · exact (getLsbD_asciiBits hlow).symm.trans (hascii ▸ getLsbD_asciiBits hlow)
    · have hcode : ∀ {u : Segments}, (∀ seg ∈ u.toList, seg.last ≤ maxCode) →
          (PageHolds (pageBits u.toList) (code / 256) (code % 256) ↔ u.Covers code) := by
        intro u hu
        rw [pageHolds_iff hu, Nat.div_add_mod]
        exact ⟨fun h => h.2.2, fun h => ⟨Nat.mod_lt _ (by decide), Nat.le_of_not_lt hlow, h⟩⟩
      rw [← hcode hs, ← hcode ht, hpages]
  · intro h
    constructor
    · refine BitVec.eq_of_getLsbD_eq fun i hi => Bool.eq_iff_iff.2 ?_
      exact (getLsbD_asciiBits hi).trans ((h i).trans (getLsbD_asciiBits hi).symm)
    · refine eq_of_pageHolds_iff (pagesIncrease_pageBits _) (pagesIncrease_pageBits _)
        (nonzero_pageBits _) (nonzero_pageBits _) fun p b => ?_
      rw [pageHolds_iff hs, pageHolds_iff ht, h]

end Lexwright

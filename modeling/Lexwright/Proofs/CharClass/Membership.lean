import Lexwright.CharClass.Compiler
import Lexwright.Proofs.Interner
import Lexwright.Proofs.Segments.Cover
import Lexwright.Proofs.Slices

/-!
# `Lexwright.Proofs.CharClass.Membership`: a compiled class decides its set

`ClassCompiler.compile` spreads a set of segments over an ASCII word, pages of 256 bits and a page
map. `contains_compile` puts the parts together again: the test of a set holds of a character
exactly when the set covers its codepoint.

The test refers to pages and page maps by number, so the statement is about the tables of any
later state of the compiler (`ClassCompiler.Extends`): what is compiled afterwards never changes
an earlier class.

* `search_eq`: the halving search finds the entry of a page.
* `holds_pageBits`: the bits collected for a page are those of all the segments.
* `Seg.pageRun`: the part of a segment that lies on one page.
* `exists_pageRuns`: the pages of one segment cover what the segment covers from 128 on.
-/

set_option autoImplicit false

namespace Lexwright

open Text

/-! ### The search of a page -/

/-- An entry that is there is what the look-up with a default gives. -/
theorem getElem!_of_getElem?_eq {α : Type} [Inhabited α] {as : Array α} {i : Nat} {a : α}
    (h : as[i]? = some a) : as[i]! = a := by
  rw [Array.getElem!_eq_getD, Array.getD_eq_getD_getElem?, h]
  rfl

/-- The search stays inside its window. -/
theorem search_mem (entries : Array PageEntry) (page base size : Nat) (h : 0 < size) :
    base ≤ search entries page base size ∧ search entries page base size < base + size := by
  fun_induction search entries page base size with
  | case1 base size hsize half middle next ih =>
    have hhalf : half = size / 2 := rfl
    have hmiddle : middle = base + half := rfl
    obtain ⟨hlow, hhigh⟩ := ih (by omega)
    -- The search goes on in one half, and both halves lie in the window.
    have hnext : next = base ∨ next = middle := by
      show (if page < entries[middle]!.page then base else middle) = base ∨
        (if page < entries[middle]!.page then base else middle) = middle
      split
      · exact Or.inl rfl
      · exact Or.inr rfl
    rcases hnext with hnext | hnext <;> omega
  | case2 base size hsize => omega

/-- In a window of increasing pages, the search finds the index of the page. -/
theorem search_eq {entries : Array PageEntry} {page base size j : Nat}
    (hincr : ∀ i k, base ≤ i → i < k → k < base + size → entries[i]!.page < entries[k]!.page)
    (hlow : base ≤ j) (hhigh : j < base + size) (hpage : entries[j]!.page = page) :
    search entries page base size = j := by
  fun_induction search entries page base size with
  | case1 base size hsize half middle next ih =>
    have hhalf : half = size / 2 := rfl
    have hmiddle : middle = base + half := rfl
    by_cases hlt : page < entries[middle]!.page
    · have hnext : next = base := if_pos hlt
      rw [hnext] at ih ⊢
      -- The page lies before the middle: a later index would hold a larger page.
      have hj : j < middle := Nat.lt_of_not_le fun hle => by
        rcases Nat.lt_or_eq_of_le hle with hgt | heq
        · have := hincr middle j (by omega) hgt hhigh
          omega
        · rw [heq] at hlt
          omega
      exact ih (fun i k hi hik hk => hincr i k hi hik (by omega)) hlow (by omega)
    · have hnext : next = middle := if_neg hlt
      rw [hnext] at ih ⊢
      -- The page lies in the middle or behind it: an earlier index would hold a smaller page.
      have hj : middle ≤ j := Nat.le_of_not_lt fun hgt => by
        have := hincr j middle hlow hgt (by omega)
        omega
      exact ih (fun i k hi hik hk => hincr i k (by omega) hik (by omega)) hj (by omega)
  | case2 base size hsize => omega

/-! ### The bits of a set -/

/-- Some page of the list has this number and this bit. -/
def PageHolds (pages : List (Nat × Page)) (page bit : Nat) : Prop :=
  ∃ bits, (page, bits) ∈ pages ∧ bits.getLsbD bit = true

/-- The pages are listed by increasing number. -/
abbrev PagesIncrease (pages : List (Nat × Page)) : Prop := pages.Pairwise fun a b => a.1 < b.1

/-- Adding bits to a page adds no other page. -/
theorem mem_addPage_fst {page : Nat} {bits : Page} {pages : List (Nat × Page)} {x : Nat × Page}
    (hx : x ∈ addPage page bits pages) : x.1 = page ∨ ∃ y ∈ pages, x.1 = y.1 := by
  induction pages with
  | nil =>
    rw [addPage, List.mem_singleton] at hx
    exact Or.inl (by rw [hx])
  | cons head rest ih =>
    obtain ⟨q, old⟩ := head
    unfold addPage at hx
    split at hx
    · rcases List.mem_cons.1 hx with rfl | hx
      · exact Or.inl rfl
      · exact Or.inr ⟨x, hx, rfl⟩
    · split at hx
      · rename_i heq
        rcases List.mem_cons.1 hx with rfl | hx
        · exact Or.inl heq.symm
        · exact Or.inr ⟨x, List.mem_cons_of_mem _ hx, rfl⟩
      · rcases List.mem_cons.1 hx with rfl | hx
        · exact Or.inr ⟨(q, old), List.mem_cons_self, rfl⟩
        · rcases ih hx with h | ⟨y, hy, h⟩
          · exact Or.inl h
          · exact Or.inr ⟨y, List.mem_cons_of_mem _ hy, h⟩

/-- A page is put in its place, so the pages stay in order. -/
theorem pagesIncrease_addPage (page : Nat) (bits : Page) {pages : List (Nat × Page)}
    (h : PagesIncrease pages) : PagesIncrease (addPage page bits pages) := by
  induction pages with
  | nil => exact List.pairwise_singleton ..
  | cons head rest ih =>
    obtain ⟨q, old⟩ := head
    obtain ⟨hhead, hrest⟩ := List.pairwise_cons.1 h
    unfold addPage
    split
    · rename_i hlt
      refine List.pairwise_cons.2 ⟨fun x hx => ?_, h⟩
      rcases List.mem_cons.1 hx with rfl | hx
      · exact hlt
      · exact Nat.lt_trans hlt (hhead x hx)
    · split
      · exact List.pairwise_cons.2 ⟨hhead, hrest⟩
      · rename_i hge hne
        refine List.pairwise_cons.2 ⟨fun x hx => ?_, ih hrest⟩
        rcases mem_addPage_fst hx with heq | ⟨y, hy, heq⟩
        · show q < x.1
          omega
        · have : q < y.1 := hhead y hy
          show q < x.1
          omega

/-- No page holds nothing. -/
theorem not_pageHolds_nil {p b : Nat} : ¬PageHolds [] p b := by
  rintro ⟨_, hmem, -⟩
  exact absurd hmem List.not_mem_nil

/-- Pages hold what the first of them or one of the others holds. -/
theorem pageHolds_cons {head : Nat × Page} {rest : List (Nat × Page)} {p b : Nat} :
    PageHolds (head :: rest) p b ↔ (p = head.1 ∧ head.2.getLsbD b = true) ∨ PageHolds rest p b := by
  constructor
  · rintro ⟨bits, hmem, hbit⟩
    rcases List.mem_cons.1 hmem with heq | hmem
    · exact Or.inl (by rw [← heq]; exact ⟨rfl, hbit⟩)
    · exact Or.inr ⟨bits, hmem, hbit⟩
  · rintro (⟨heq, hbit⟩ | ⟨bits, hmem, hbit⟩)
    · exact ⟨head.2, by rw [heq]; exact List.mem_cons_self, hbit⟩
    · exact ⟨bits, List.mem_cons_of_mem _ hmem, hbit⟩

/-- Added bits are held by their page, and the others by the pages from before. -/
theorem pageHolds_addPage {page : Nat} {bits : Page} {pages : List (Nat × Page)} {p b : Nat} :
    PageHolds (addPage page bits pages) p b ↔
      (p = page ∧ bits.getLsbD b = true) ∨ PageHolds pages p b := by
  induction pages with
  | nil => exact pageHolds_cons
  | cons head rest ih =>
    obtain ⟨q, old⟩ := head
    unfold addPage
    split
    · exact pageHolds_cons
    · split
      · rename_i heq
        subst heq
        -- The page is there already: the new bits join the old ones.
        rw [pageHolds_cons, pageHolds_cons, BitVec.getLsbD_or, Bool.or_eq_true, and_or_left]
        rw [or_comm (a := p = page ∧ old.getLsbD b = true), or_assoc]
      · rw [pageHolds_cons, ih, pageHolds_cons]
        exact or_left_comm

/-- The bits collected for a page are those of all the segments. -/
theorem pageHolds_pageBits {segs : List Seg} {p b : Nat} :
    PageHolds (pageBits segs) p b ↔
      ∃ seg ∈ segs, ∃ run ∈ seg.pageRuns, run.1 = p ∧ run.2.getLsbD b = true := by
  have hruns : ∀ runs : List (Nat × Page),
      PageHolds (runs.foldr (fun run found => addPage run.1 run.2 found) []) p b ↔
        ∃ run ∈ runs, run.1 = p ∧ run.2.getLsbD b = true := by
    intro runs
    induction runs with
    | nil =>
      refine iff_of_false not_pageHolds_nil ?_
      rintro ⟨_, hmem, _⟩
      exact absurd hmem List.not_mem_nil
    | cons run rest ih =>
      rw [List.foldr_cons, pageHolds_addPage, ih]
      simp only [List.mem_cons, exists_eq_or_imp, eq_comm (a := p)]
  unfold pageBits
  rw [hruns]
  simp only [List.mem_flatMap]
  constructor
  · rintro ⟨run, ⟨seg, hseg, hrun⟩, h⟩
    exact ⟨seg, hseg, run, hrun, h⟩
  · rintro ⟨seg, hseg, run, hrun, h⟩
    exact ⟨run, ⟨seg, hseg, hrun⟩, h⟩

/-- The pages of segments come in increasing order, each once. -/
theorem pagesIncrease_pageBits (segs : List Seg) : PagesIncrease (pageBits segs) := by
  unfold pageBits
  induction segs.flatMap Seg.pageRuns with
  | nil => exact .nil
  | cons run rest ih => exact pagesIncrease_addPage run.1 run.2 ih

/-- The run of a segment in one page. -/
def Seg.pageRun (s : Seg) (page : Nat) : Nat × Page :=
  (page % 65536,
    bitRange 256 (if page = max s.first 128 / 256 then max s.first 128 % 256 else 0)
      (if page = s.last / 256 then s.last % 256 else 255))

/-- A segment has a run on each page that it reaches, ASCII left out. -/
theorem mem_pageRuns_iff {seg : Seg} {run : Nat × Page} :
    run ∈ seg.pageRuns ↔ ∃ page, max seg.first 128 / 256 ≤ page ∧ page ≤ seg.last / 256 ∧
      max seg.first 128 ≤ seg.last ∧ seg.pageRun page = run := by
  unfold Seg.pageRuns
  simp only
  split
  · rename_i hascii
    refine iff_of_false List.not_mem_nil ?_
    rintro ⟨page, -, -, hlast, -⟩
    exact absurd hascii (Nat.not_lt.2 hlast)
  · rename_i hascii
    rw [List.mem_map]
    refine exists_congr fun page => ?_
    rw [List.mem_range'_1]
    constructor
    · rintro ⟨⟨hlow, hhigh⟩, hrun⟩
      exact ⟨hlow, by omega, by omega, hrun⟩
    · rintro ⟨hlow, hhigh, -, hrun⟩
      exact ⟨⟨hlow, by omega⟩, hrun⟩

/-- In a page that the segment reaches, the run has the bits of the codepoints of the segment. Only
the first page and the last page are cut; the others are full. -/
theorem getLsbD_pageRun {seg : Seg} {page b : Nat} (hlow : max seg.first 128 / 256 ≤ page)
    (hhigh : page ≤ seg.last / 256) : (seg.pageRun page).2.getLsbD b = true ↔
      b < 256 ∧ max seg.first 128 ≤ 256 * page + b ∧ 256 * page + b ≤ seg.last := by
  show (bitRange 256 _ _).getLsbD b = true ↔ _
  rw [getLsbD_bitRange, decide_eq_true_eq]
  refine and_congr_right fun hb => and_congr ?_ ?_
  · split <;> omega
  · split <;> omega

/-- The pages of a segment cover what the segment covers from codepoint 128 on. -/
theorem exists_pageRuns {seg : Seg} {code : Nat} (hlast : seg.last ≤ maxCode) (hcode : 128 ≤ code) :
    (∃ run ∈ seg.pageRuns, run.1 = code / 256 ∧ run.2.getLsbD (code % 256) = true) ↔
      seg.Covers code := by
  unfold maxCode at hlast
  unfold Seg.Covers
  constructor
  · rintro ⟨run, hrun, heq, hbit⟩
    obtain ⟨page, hlow, hhigh, -, rfl⟩ := mem_pageRuns_iff.1 hrun
    obtain ⟨-, hfirst, hbefore⟩ := (getLsbD_pageRun hlow hhigh).1 hbit
    -- Page numbers are kept in 16 bits, and codepoints are small enough for that.
    have hpage : page % 65536 = code / 256 := heq
    omega
  · intro h
    have hlow : max seg.first 128 / 256 ≤ code / 256 := by omega
    have hhigh : code / 256 ≤ seg.last / 256 := by omega
    refine ⟨seg.pageRun (code / 256), mem_pageRuns_iff.2 ⟨_, hlow, hhigh, by omega, rfl⟩,
      Nat.mod_eq_of_lt (by omega), ?_⟩
    exact (getLsbD_pageRun hlow hhigh).2 ⟨Nat.mod_lt _ (by decide), by omega, by omega⟩

/-- The ASCII word holds the bits of the codepoints that the segments cover. -/
theorem getLsbD_asciiBits {segs : List Seg} {code : Nat} (hcode : code < 128) :
    (asciiBits segs).getLsbD code = true ↔ ∃ seg ∈ segs, seg.Covers code := by
  unfold asciiBits
  induction segs with
  | nil => simp
  | cons seg rest ih =>
    rw [List.foldr_cons, BitVec.getLsbD_or, Bool.or_eq_true, ih, getLsbD_bitRange,
      decide_eq_true_eq]
    simp only [List.mem_cons, exists_eq_or_imp]
    rw [or_comm]
    refine or_congr_left ?_
    unfold Seg.Covers
    omega

/-! ### The look-up in a page map -/

/-- In a slice of increasing pages, the look-up finds the entry of the page. -/
theorem ClassTables.contains_iff {t : ClassTables} {map first code : Nat}
    {entries : List PageEntry} (hbounds : t.pageMaps[map]? = some (first, first + entries.length))
    (hslice : ∀ j, j < entries.length → t.pageEntries[first + j]? = entries[j]?)
    (hincr : entries.Pairwise fun a b => a.page < b.page) :
    t.contains map code = true ↔
      ∃ entry ∈ entries, entry.page = pageOf code ∧
        t.pages[entry.bits]!.contains (code % 256) = true := by
  have hget : ∀ j (h : j < entries.length), t.pageEntries[first + j]! = entries[j] := by
    intro j h
    refine getElem!_of_getElem?_eq ?_
    exact (hslice j h).trans (List.getElem?_eq_getElem h)
  unfold ClassTables.contains
  rw [hbounds]
  simp only [Nat.add_sub_cancel_left]
  by_cases hlt : first < first + entries.length
  · rw [if_pos hlt]
    obtain ⟨hlow, hhigh⟩ :=
      search_mem t.pageEntries (pageOf code) first entries.length (by omega)
    generalize hfound : search t.pageEntries (pageOf code) first entries.length = found at *
    -- The index that was found is inside the slice, so that its entry can be compared.
    obtain ⟨j, rfl⟩ : ∃ j, found = first + j := ⟨found - first, by omega⟩
    have hj : j < entries.length := by omega
    rw [hslice j hj, List.getElem?_eq_getElem hj]
    simp only [Bool.and_eq_true, beq_iff_eq]
    constructor
    · intro h
      exact ⟨entries[j], List.getElem_mem hj, h⟩
    · rintro ⟨entry, hmem, hpage, hbit⟩
      obtain ⟨i, hi, rfl⟩ := List.getElem_of_mem hmem
      -- The search cannot have stopped at another entry than this one.
      have hij : search t.pageEntries (pageOf code) first entries.length = first + i := by
        refine search_eq (fun a b ha hab hb => ?_) (by omega) (by omega) ?_
        · obtain ⟨a, rfl⟩ : ∃ x, a = first + x := ⟨a - first, by omega⟩
          obtain ⟨b, rfl⟩ : ∃ x, b = first + x := ⟨b - first, by omega⟩
          rw [hget a (by omega), hget b (by omega)]
          exact List.pairwise_iff_getElem.1 hincr a b _ _ (by omega)
        · rw [hget i hi]
          exact hpage
      have : i = j := by omega
      subst this
      exact ⟨hpage, hbit⟩
  · rw [if_neg hlt]
    have hnil : entries = [] := List.eq_nil_of_length_eq_zero (by omega)
    subst hnil
    constructor
    · intro h
      exact absurd h (by decide)
    · rintro ⟨_, hmem, _⟩
      exact absurd hmem List.not_mem_nil

namespace ClassCompiler

variable {k k' k'' : ClassCompiler}

/-! ### What later classes leave alone -/

/-- Every page, page map and test has the same number in `k'`. -/
structure Extends (k k' : ClassCompiler) : Prop where
  pages : k.pages.Extends k'.pages
  pageMaps : k.pageMaps.Extends k'.pageMaps
  classes : k.classes.Extends k'.classes

/-- Every state of the compiler extends itself. -/
theorem Extends.refl (k : ClassCompiler) : k.Extends k := ⟨.refl _, .refl _, .refl _⟩

/-- What extends a later state extends an earlier one. -/
theorem Extends.trans (h : k.Extends k') (h' : k'.Extends k'') : k.Extends k'' :=
  ⟨h.pages.trans h'.pages, h.pageMaps.trans h'.pageMaps, h.classes.trans h'.classes⟩

/-- Storing a page map keeps all the pages and maps stored before. -/
theorem extends_internPageMap (k : ClassCompiler) (runs : List (Nat × Page)) :
    k.Extends (k.internPageMap runs).1 :=
  ⟨Interner.extends_internAll _ _, Interner.extends_intern _ _, .refl _⟩

/-- Compiling a set keeps all the pages and maps stored before. -/
theorem extends_compile (k : ClassCompiler) (s : Segments) : k.Extends (k.compile s).1 := by
  unfold compile
  split
  · exact .refl k
  · exact extends_internPageMap ..

/-- Numbering a compiled class leaves pages and maps alone. -/
theorem extends_internClass_of_compile (k : ClassCompiler) (s : Segments) :
    (k.compile s).1.Extends (k.internClass s).1 :=
  ⟨.refl _, .refl _, Interner.extends_intern _ _⟩

/-- Numbering a class keeps all that was stored before. -/
theorem extends_internClass (k : ClassCompiler) (s : Segments) : k.Extends (k.internClass s).1 :=
  (extends_compile k s).trans (extends_internClass_of_compile k s)

/-- The number that interning a set gives denotes the test of the set. -/
theorem get?_internClass (k : ClassCompiler) (s : Segments) :
    (k.internClass s).1.classes.get? (k.internClass s).2 = some (k.compile s).2 :=
  Interner.get?_intern ..

/-! ### The test of a set -/

/-- The page map that is interned lists the pages of the runs, each with the number of its
bits. -/
theorem exists_pageMap (k : ClassCompiler) (runs : List (Nat × Page)) :
    ∃ entries, (k.internPageMap runs).1.pageMaps.get? (k.internPageMap runs).2 = some entries ∧
      entries.length = runs.length ∧
      ∀ j (hj : j < entries.length) (hj' : j < runs.length), entries[j].page = runs[j].1 ∧
        (k.internPageMap runs).1.pages.get? entries[j].bits = some runs[j].2 := by
  have hlength := Interner.length_internAll k.pages (runs.map (·.2))
  rw [List.length_map] at hlength
  refine ⟨_, Interner.get?_intern .., ?_, fun j hj hj' => ?_⟩
  · rw [List.length_zipWith, hlength, Nat.min_self]
  · rw [List.getElem_zipWith]
    refine ⟨rfl, ?_⟩
    have hid := List.getElem?_eq_getElem
      (show j < (k.pages.internAll (runs.map (·.2))).2.length by rw [hlength]; exact hj')
    have hget := Interner.get?_internAll k.pages (runs.map (·.2)) hid
    rw [List.getElem?_map, List.getElem?_eq_getElem hj'] at hget
    exact hget

/-- A page map that is interned lists exactly the pages of the runs. The number of the page map
stays when the compiler goes on. -/
theorem contains_internPageMap {runs : List (Nat × Page)} (hincr : PagesIncrease runs)
    (hext : (k.internPageMap runs).1.Extends k') (code : Nat) :
    k'.tables.contains (k.internPageMap runs).2 code = true ↔
      PageHolds runs (pageOf code) (code % 256) := by
  obtain ⟨entries, hmap, hlength, hentries⟩ := exists_pageMap k runs
  -- From here on the tables are those of `k'`, which keep the page map and its pages.
  replace hmap := hext.pageMaps _ _ hmap
  have hmaps : k'.pageMaps.items.toList[(k.internPageMap runs).2]? = some entries := by
    rw [Array.getElem?_toList]
    exact hmap
  obtain ⟨first, hbounds, hslice⟩ := exists_slice _ hmaps
  have hpages : ∀ j (hj : j < entries.length) (hj' : j < runs.length),
      k'.tables.pages[entries[j].bits]! = runs[j].2 := fun j hj hj' =>
    getElem!_of_getElem?_eq (hext.pages _ _ (hentries j hj hj').2)
  have hat : k'.tables.pageMaps[(k.internPageMap runs).2]? =
      some (first, first + entries.length) := by
    show (bounds 0 k'.pageMaps.items.toList).toArray[_]? = _
    rw [bounds_eq_rowBounds, List.getElem?_toArray]
    exact hbounds
  -- The bounds cut the entries of this page map, and no others, out of all entries.
  have hentry : ∀ j, j < entries.length → k'.tables.pageEntries[first + j]? = entries[j]? := by
    intro j hj
    have := congrArg (·[j]?) hslice
    simp only [Array.getElem?_toList, Array.getElem?_extract] at this
    split at this
    · exact this
    · rw [List.getElem?_eq_getElem hj] at this
      cases this
  have hpairwise : entries.Pairwise fun a b => a.page < b.page := by
    refine List.pairwise_iff_getElem.2 fun i j hi hj hij => ?_
    rw [(hentries i hi (by omega)).1, (hentries j hj (by omega)).1]
    exact List.pairwise_iff_getElem.1 hincr i j _ _ hij
  refine (ClassTables.contains_iff hat hentry hpairwise).trans ?_
  constructor
  · rintro ⟨entry, hmem, hpage, hbit⟩
    obtain ⟨j, hj, rfl⟩ := List.getElem_of_mem hmem
    have hj' : j < runs.length := by omega
    rw [hpages j hj hj'] at hbit
    rw [(hentries j hj hj').1] at hpage
    exact ⟨runs[j].2, by rw [← hpage]; exact List.getElem_mem hj', hbit⟩
  · rintro ⟨bits, hmem, hbit⟩
    obtain ⟨j, hj', heq⟩ := List.getElem_of_mem hmem
    have hj : j < entries.length := by omega
    refine ⟨entries[j], List.getElem_mem hj, ?_, ?_⟩
    · rw [(hentries j hj hj').1, heq]
    · rw [hpages j hj hj', heq]
      exact hbit

/-- The pages collected for a set cover what the set covers from codepoint 128 on. -/
theorem pageHolds_iff_covers {s : Segments} (hs : ∀ seg ∈ s.toList, seg.last ≤ maxCode)
    {code : Nat} (hcode : 128 ≤ code) (hlast : code ≤ maxCode) :
    PageHolds (pageBits s.toList) (pageOf code) (code % 256) ↔ s.Covers code := by
  have hpage : pageOf code = code / 256 :=
    Nat.mod_eq_of_lt (by unfold maxCode at hlast; omega)
  rw [pageHolds_pageBits, hpage]
  constructor
  · rintro ⟨seg, hseg, h⟩
    exact ⟨seg, hseg, (exists_pageRuns (hs seg hseg) hcode).1 h⟩
  · rintro ⟨seg, hseg, h⟩
    exact ⟨seg, hseg, (exists_pageRuns (hs seg hseg) hcode).2 h⟩

/-- The test of a set holds of a character exactly when the set covers it, whatever the compiler
met afterwards. -/
theorem contains_compile {s : Segments} (hs : ∀ seg ∈ s.toList, seg.last ≤ maxCode)
    (hext : (k.compile s).1.Extends k') (c : Char) :
    (k.compile s).2.contains k'.tables c = true ↔ s.Covers c.toNat := by
  have hlast : c.toNat ≤ maxCode := by
    have : c.toNat.isValidChar := c.valid
    unfold maxCode
    rcases this with h | h <;> omega
  unfold ClassTest.contains
  -- Below 128 the ASCII word decides, and from 128 on the page map of the class.
  by_cases hcode : c.toNat < 128
  · rw [if_pos hcode]
    refine Iff.trans ?_ (@getLsbD_asciiBits s.toList _ hcode)
    have hascii : (k.compile s).2.ascii = asciiBits s.toList := by
      unfold compile
      split <;> rfl
    rw [← hascii]
    exact Iff.rfl
  · rw [if_neg hcode]
    refine Iff.trans ?_ (pageHolds_iff_covers hs (Nat.le_of_not_lt hcode) hlast)
    unfold compile at hext ⊢
    split at hext
    · rename_i hnil
      simp only [hnil]
      -- Without pages there is no page map to ask.
      exact iff_of_false (by decide) not_pageHolds_nil
    · exact contains_internPageMap (pagesIncrease_pageBits _) hext _

end ClassCompiler

end Lexwright

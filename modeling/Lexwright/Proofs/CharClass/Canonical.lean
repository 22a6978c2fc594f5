import Lexwright.Proofs.CharClass.Bits
import Lexwright.Proofs.CharClass.Calls

/-!
# `Lexwright.Proofs.CharClass.Canonical`: one number for each set of codepoints

A compiler numbers pages, page maps made of the numbers of pages, and tests made of the numbers of
page maps. Each layer is determined by the one below and determines it, so the number of a test
tells the codepoints of its set.

* `ClassCompiler.Encodes`: the test stands for an ASCII word and for pages.
* `ClassCompiler.Counted`: what calls add to the three layers, and the numbers that they use.
* `ClassCompiler.Canonical`: what is true of a compiler after calls, and of its answers.
  `canonical_answerAll` proves it.
-/

set_option autoImplicit false

namespace Lexwright

open Text

namespace ClassTables

/-- The page maps, as lists of entries. -/
def maps (t : ClassTables) : List (List PageEntry) :=
  (List.range t.pageMaps.size).map fun m => (t.pageMap m).toList

/-- The entries of the page map of a test, if it has one. -/
def entriesOf (t : ClassTables) (test : ClassTest) : List PageEntry :=
  test.pageMap.toList.flatMap fun m => (t.pageMap m).toList

end ClassTables

namespace ClassCompiler

variable {k k' k'' : ClassCompiler} {s t : Segments} {test test' : ClassTest}
  {ascii ascii' : BitVec 128} {runs runs' : List (Nat × Page)} {entries entries' : List PageEntry}
  {calls : List Call}

/-! ### Page maps in the tables -/

/-- The slices of the tables are the page maps that were interned. -/
theorem toList_pageMap {m : Nat} (h : k.pageMaps.get? m = some entries) :
    (k.tables.pageMap m).toList = entries := by
  have hmaps : k.pageMaps.items.toList[m]? = some entries := by
    rw [Array.getElem?_toList]
    exact h
  obtain ⟨first, hbounds, hslice⟩ := exists_slice _ hmaps
  have hat : k.tables.pageMaps[m]? = some (first, first + entries.length) := by
    show (bounds 0 k.pageMaps.items.toList).toArray[m]? = _
    rw [bounds_eq_rowBounds, List.getElem?_toArray]
    exact hbounds
  unfold ClassTables.pageMap
  rw [hat]
  exact hslice

/-- The tables hold the page maps in the order of their numbers. -/
theorem maps_tables (k : ClassCompiler) : k.tables.maps = k.pageMaps.items.toList := by
  have hsize : k.tables.pageMaps.size = k.pageMaps.items.toList.length := by
    show (bounds 0 k.pageMaps.items.toList).toArray.size = _
    rw [bounds_eq_rowBounds, List.size_toArray, length_rowBounds, List.length_map]
  unfold ClassTables.maps
  rw [hsize]
  refine List.ext_getElem (by simp) fun m hm hm' => ?_
  rw [List.getElem_map, List.getElem_range]
  refine toList_pageMap ?_
  show k.pageMaps.items[m]? = _
  rw [← Array.getElem?_toList]
  exact List.getElem?_eq_getElem hm'

/-! ### What a test stands for -/

/-- The entries list the pages, each with the number of its bits. -/
structure Lists (k : ClassCompiler) (entries : List PageEntry) (runs : List (Nat × Page)) :
    Prop where
  length : entries.length = runs.length
  entry : ∀ j (hj : j < entries.length) (hj' : j < runs.length), entries[j].page = runs[j].1 ∧
    k.pages.get? entries[j].bits = some runs[j].2

/-- Entries keep their meaning while the tables grow. -/
theorem Lists.mono (h : k.Lists entries runs) (hext : k.Extends k') : k'.Lists entries runs where
  length := h.length
  entry j hj hj' := ⟨(h.entry j hj hj').1, hext.pages _ _ (h.entry j hj hj').2⟩

/-- Entries list one sequence of pages only: a number stands for one page. -/
theorem Lists.runs_eq (h : k.Lists entries runs) (h' : k.Lists entries runs') : runs = runs' := by
  refine List.ext_getElem (h.length.symm.trans h'.length) fun j hj hj' => ?_
  obtain ⟨hpage, hbits⟩ := h.entry j (h.length ▸ hj) hj
  obtain ⟨hpage', hbits'⟩ := h'.entry j (h.length ▸ hj) hj'
  rw [hbits] at hbits'
  exact Prod.ext (hpage.symm.trans hpage') (Option.some.inj hbits')

/-- A sequence of pages has one list of entries only: a page has one number. -/
theorem Lists.entries_eq (h : k.Lists entries runs) (h' : k.Lists entries' runs) :
    entries = entries' := by
  refine List.ext_getElem (h.length.trans h'.length.symm) fun j hj hj' => ?_
  obtain ⟨hpage, hbits⟩ := h.entry j hj (h.length ▸ hj)
  obtain ⟨hpage', hbits'⟩ := h'.entry j hj' (h.length ▸ hj)
  have hpages : entries[j].page = entries'[j].page := hpage.trans hpage'.symm
  have hids : entries[j].bits = entries'[j].bits := Interner.eq_of_get? hbits hbits'
  cases hentry : entries[j]
  cases hentry' : entries'[j]
  simp only [hentry, hentry'] at hpages hids
  rw [hpages, hids]

/-- The test stands for the ASCII word and the pages: it has no page map if there are no pages, and
else the number of the page map that lists them. -/
inductive Encodes (k : ClassCompiler) (ascii : BitVec 128) :
    ClassTest → List (Nat × Page) → Prop where
  | ascii : Encodes k ascii ⟨ascii, none⟩ []
  | pages {m : Nat} {runs : List (Nat × Page)} {entries : List PageEntry} (hne : runs ≠ [])
      (hmap : k.pageMaps.get? m = some entries) (hlists : k.Lists entries runs) :
      Encodes k ascii ⟨ascii, some m⟩ runs

/-- A test keeps its meaning while the tables grow. -/
theorem Encodes.mono (h : k.Encodes ascii test runs) (hext : k.Extends k') :
    k'.Encodes ascii test runs := by
  cases h with
  | ascii => exact .ascii
  | pages hne hmap hlists => exact .pages hne (hext.pageMaps _ _ hmap) (hlists.mono hext)

/-- Two tests are equal exactly when they stand for the same word and the same pages. -/
theorem Encodes.eq_iff (h : k.Encodes ascii test runs) (h' : k.Encodes ascii' test' runs') :
    test = test' ↔ ascii = ascii' ∧ runs = runs' := by
  cases h with
  | ascii =>
    cases h' with
    | ascii => simp
    | pages hne => simp [hne.symm]
  | pages hne hmap hlists =>
    cases h' with
    | ascii => simp [hne]
    | @pages m' runs' entries' _ hmap' hlists' =>
      simp only [ClassTest.mk.injEq, Option.some.injEq]
      refine and_congr_right fun _ => ⟨fun hm => ?_, fun hruns => ?_⟩
      · -- The page map with this number lists both.
        rw [hm, hmap'] at hmap
        cases hmap
        exact hlists.runs_eq hlists'
      · subst hruns
        rw [hlists.entries_eq hlists'] at hmap
        exact Interner.eq_of_get? hmap hmap'

/-- The page map that is stored for some pages lists these pages. -/
theorem lists_internPageMap (k : ClassCompiler) (runs : List (Nat × Page)) :
    ∃ entries, (k.internPageMap runs).1.pageMaps.get? (k.internPageMap runs).2 = some entries ∧
      (k.internPageMap runs).1.Lists entries runs := by
  obtain ⟨entries, hmap, hlength, hentry⟩ := exists_pageMap k runs
  exact ⟨entries, hmap, hlength, hentry⟩

/-- A compiled test encodes the bits of the segments, ASCII and beyond. -/
theorem encodes_compile (k : ClassCompiler) (s : Segments) :
    (k.compile s).1.Encodes (asciiBits s.toList) (k.compile s).2 (pageBits s.toList) := by
  unfold compile
  split
  · rename_i hnil
    rw [hnil]
    exact .ascii
  · rename_i hne
    obtain ⟨entries, hmap, hlists⟩ := lists_internPageMap k (pageBits s.toList)
    exact .pages hne hmap hlists

/-- The number that a call gives to a set denotes a test that stands for the bits of the set, also
when the compiler goes on. -/
theorem exists_number (k : ClassCompiler) {i : Nat} (hcall : calls[i]? = some (.internClass s)) :
    ∃ id test, (k.answerAll calls).2[i]? = some (.number id) ∧
      (k.answerAll calls).1.classes.get? id = some test ∧
      (k.answerAll calls).1.Encodes (asciiBits s.toList) test (pageBits s.toList) := by
  induction calls generalizing k i with
  | nil => cases hcall
  | cons first calls ih =>
    cases i with
    | zero =>
      cases hcall
      have hext := extends_answerAll (k.internClass s).1 calls
      exact ⟨_, _, rfl, hext.classes _ _ (get?_internClass k s),
        (encodes_compile k s).mono ((extends_internClass_of_compile k s).trans hext)⟩
    | succ i => exact ih (k.answer first).1 hcall

/-! ### What calls add -/

/-- The numbers of pages that an answer uses: the one that it gives, or those of its page map. -/
def Answer.pages (k : ClassCompiler) (found : Answer) : List Nat :=
  match found with
  | .page id => [id]
  | _ => (found.test? k).toList.flatMap fun test => (k.tables.entriesOf test).map PageEntry.bits

/-- The number of the page map that an answer uses. -/
def Answer.maps (k : ClassCompiler) (found : Answer) : List Nat :=
  (found.test? k).toList.flatMap fun test => test.pageMap.toList

/-- The number of a test that an answer gives. -/
def Answer.classes : Answer → List Nat
  | .number id => [id]
  | _ => []

/-- From `k` to `k'` the answers use numbers in order, in each of the layers. The answers are read
with a later compiler. -/
structure Counted (later k : ClassCompiler) (answers : List Answer) (k' : ClassCompiler) :
    Prop where
  pages : Counts k.pages.size (answers.flatMap (Answer.pages later)) k'.pages.size
  maps : Counts k.pageMaps.size (answers.flatMap (Answer.maps later)) k'.pageMaps.size
  classes : Counts k.classes.size (answers.flatMap Answer.classes) k'.classes.size

/-- What some calls count and what later calls count is counted together. -/
theorem Counted.append {later : ClassCompiler} {as bs : List Answer}
    (h : Counted later k as k') (h' : Counted later k' bs k'') :
    Counted later k (as ++ bs) k'' where
  pages := by
    rw [List.flatMap_append]
    exact h.pages.append h'.pages
  maps := by
    rw [List.flatMap_append]
    exact h.maps.append h'.maps
  classes := by
    rw [List.flatMap_append]
    exact h.classes.append h'.classes

/-- The entries of a page map have the numbers that its pages were given. -/
theorem entries_internPageMap (hext : (k.internPageMap runs).1.Extends k') :
    (k'.tables.pageMap (k.internPageMap runs).2).toList.map PageEntry.bits =
      (k.pages.internAll (runs.map (·.2))).2 := by
  have hlength := Interner.length_internAll k.pages (runs.map (·.2))
  rw [List.length_map] at hlength
  have hmap : (k.internPageMap runs).1.pageMaps.get? (k.internPageMap runs).2 =
      some (List.zipWith (fun run i => PageEntry.mk run.1 i) runs
        (k.pages.internAll (runs.map (·.2))).2) := Interner.get?_intern ..
  rw [toList_pageMap (hext.pageMaps _ _ hmap), List.map_zipWith]
  refine List.ext_getElem (by simp [hlength]) fun j hj hj' => ?_
  rw [List.getElem_zipWith]

/-- Compiling a set uses numbers of pages, and of one page map, in order. -/
theorem counts_compile (hext : (k.compile s).1.Extends k') :
    Counts k.pages.size ((k'.tables.entriesOf (k.compile s).2).map PageEntry.bits)
        (k.compile s).1.pages.size ∧
      Counts k.pageMaps.size (k.compile s).2.pageMap.toList (k.compile s).1.pageMaps.size ∧
      (k.compile s).1.classes = k.classes := by
  unfold compile at hext ⊢
  split at hext
  · exact ⟨.nil _, .nil _, rfl⟩
  · refine ⟨?_, Interner.counts_intern _ _, rfl⟩
    have hentries := entries_internPageMap hext
    show Counts _ (List.map _ (List.flatMap _ [_])) _
    rw [List.flatMap_singleton, hentries]
    exact Interner.counts_internAll ..

/-- Numbering a class adds the pages that compiling it adds. -/
theorem pages_internClass : (k.internClass s).1.pages = (k.compile s).1.pages := rfl

/-- Numbering a class adds the page maps that compiling it adds. -/
theorem pageMaps_internClass : (k.internClass s).1.pageMaps = (k.compile s).1.pageMaps := rfl

/-- One call counts its own answer, whichever of the tables it asks for. -/
theorem counted_answer {call : Call} (hext : (k.answer call).1.Extends k') :
    Counted k' k [(k.answer call).2] (k.answer call).1 := by
  cases call with
  | compile s =>
    obtain ⟨hpages, hmaps, hclasses⟩ := counts_compile hext
    refine ⟨?_, ?_, ?_⟩
    · simpa [Answer.pages, Answer.test?, answer] using hpages
    · simpa [Answer.maps, Answer.test?, answer] using hmaps
    · have hcounts : Counts k.classes.size [] (k.compile s).1.classes.size := by
        rw [hclasses]
        exact .nil _
      exact hcounts
  | internClass s =>
    have htest : k'.classes.get? (k.internClass s).2 = some (k.compile s).2 :=
      hext.classes _ _ (get?_internClass k s)
    obtain ⟨hpages, hmaps, hclasses⟩ :=
      counts_compile ((extends_internClass_of_compile k s).trans hext)
    refine ⟨?_, ?_, ?_⟩
    · simpa [Answer.pages, Answer.test?, answer, htest, pages_internClass] using hpages
    · simpa [Answer.maps, Answer.test?, answer, htest, pageMaps_internClass] using hmaps
    · rw [← hclasses]
      exact Interner.counts_intern (k.compile s).1.classes (k.compile s).2
  | internPage bits => exact ⟨Interner.counts_intern .., .nil _, .nil _⟩

/-- Whatever is asked, the answers use numbers in order. -/
theorem counted_answerAll (k : ClassCompiler) (calls : List Call)
    (hext : (k.answerAll calls).1.Extends k') :
    Counted k' k (k.answerAll calls).2 (k.answerAll calls).1 := by
  induction calls generalizing k with
  | nil => exact ⟨.nil _, .nil _, .nil _⟩
  | cons call calls ih =>
    have hfirst := (extends_answerAll (k.answer call).1 calls).trans hext
    exact (counted_answer hfirst).append (ih (k.answer call).1 hext)

/-! ### The order of the pages -/

/-- The page maps list their pages in increasing order. -/
def Increases (k : ClassCompiler) : Prop :=
  ∀ (m : Nat) (entries : List PageEntry), k.pageMaps.get? m = some entries →
    entries.Pairwise fun a b => a.page < b.page

/-- Pages in increasing order have entries in increasing order. -/
theorem Lists.increase (h : k.Lists entries runs) (hruns : PagesIncrease runs) :
    entries.Pairwise fun a b => a.page < b.page := by
  have hlength := h.length
  refine List.pairwise_iff_getElem.2 fun i j hi hj hij => ?_
  rw [(h.entry i hi (by omega)).1, (h.entry j hj (by omega)).1]
  exact List.pairwise_iff_getElem.1 hruns i j _ _ hij

/-- Compiling a set adds page maps in increasing order only. -/
theorem Increases.compile (h : k.Increases) (s : Segments) : (k.compile s).1.Increases := by
  unfold ClassCompiler.compile
  split
  · exact h
  · intro m entries hm
    obtain ⟨entries', hmap, hlists⟩ := lists_internPageMap k (pageBits s.toList)
    -- A page map is the one that was added, or it was there before.
    rcases Interner.eq_or_get?_of_intern hm with heq | hm
    · have hadded : (k.internPageMap (pageBits s.toList)).1.pageMaps.get?
          (k.internPageMap (pageBits s.toList)).2 = some entries := by
        rw [heq]
        exact Interner.get?_intern ..
      rw [hmap] at hadded
      cases hadded
      exact hlists.increase (pagesIncrease_pageBits _)
    · exact h m entries hm

/-- All the page maps stay in increasing order through any calls. -/
theorem increases_answerAll (h : k.Increases) (calls : List Call) :
    (k.answerAll calls).1.Increases := by
  induction calls generalizing k with
  | nil => exact h
  | cons call calls ih =>
    refine ih ?_
    cases call with
    | compile s => exact h.compile s
    | internClass s => exact h.compile s
    | internPage bits => exact h

/-! ### The numbers of a compiler -/

/-- The numbers of a compiler after some calls, and its answers to them. -/
structure Canonical (k : ClassCompiler) (calls : List Call) (answers : List Answer) : Prop where
  /-- Two sets have one number exactly when they cover the same codepoints. -/
  same : ∀ {i j : Nat} {s t : Segments}, calls[i]? = some (.internClass s) →
    calls[j]? = some (.internClass t) → ∃ m n, answers[i]? = some (.number m) ∧
      answers[j]? = some (.number n) ∧ (m = n ↔ ∀ code, s.Covers code ↔ t.Covers code)
  pagesDistinct : k.tables.pages.toList.Nodup
  mapsDistinct : k.tables.maps.Nodup
  classesDistinct : k.classes.items.toList.Nodup
  /-- A page map lists its pages in increasing order. -/
  increase : ∀ entries ∈ k.tables.maps, entries.Pairwise fun a b => a.page < b.page
  /-- In the order of first use, the numbers of each kind are those from 0 on. -/
  pagesInOrder : (answers.flatMap (Answer.pages k)).eraseDups = List.range k.tables.pages.size
  mapsInOrder : (answers.flatMap (Answer.maps k)).eraseDups = List.range k.tables.maps.length
  classesInOrder : (answers.flatMap Answer.classes).eraseDups = List.range k.classes.size

/-- Whatever a new compiler is asked, the number of a set depends on its codepoints only, and no
value is stored twice or out of order. -/
theorem canonical_answerAll (calls : List Call)
    (hcalls : ∀ call ∈ calls, ∀ set ∈ call.set?, ∀ seg ∈ set.toList, seg.last ≤ maxCode) :
    Canonical (answerAll {} calls).1 calls (answerAll {} calls).2 := by
  have hcounted := counted_answerAll {} calls (.refl _)
  have hempty : Increases {} := fun m entries hm => nomatch hm
  have hincrease := increases_answerAll hempty calls
  exact {
    same := fun {i j s t} hi hj => by
      obtain ⟨m, test, hm, htest, hencodes⟩ := exists_number {} hi
      obtain ⟨n, test', hn, htest', hencodes'⟩ := exists_number {} hj
      refine ⟨m, n, hm, hn, ?_⟩
      have hs := hcalls _ (List.mem_of_getElem? hi) s rfl
      have ht := hcalls _ (List.mem_of_getElem? hj) t rfl
      -- Two sets have the same members if and only if their tests are the same, and then their
      -- numbers.
      rw [← bits_eq_iff hs ht, ← hencodes.eq_iff hencodes']
      constructor
      · intro heq
        rw [heq, htest'] at htest
        exact (Option.some.inj htest).symm
      · intro heq
        rw [heq] at htest
        exact Interner.eq_of_get? htest htest'
    pagesDistinct := Interner.nodup_items _
    mapsDistinct := by
      rw [maps_tables]
      exact Interner.nodup_items _
    classesDistinct := Interner.nodup_items _
    increase := fun entries hentries => by
      rw [maps_tables] at hentries
      obtain ⟨m, hm⟩ := List.getElem?_of_mem hentries
      rw [Array.getElem?_toList] at hm
      exact hincrease m entries hm
    pagesInOrder := hcounted.pages.eraseDups_eq
    mapsInOrder := by
      rw [maps_tables]
      exact hcounted.maps.eraseDups_eq
    classesInOrder := hcounted.classes.eraseDups_eq }

/-- The letters from `a` on up to `Ȁ` have one number, also if they are given in two segments that
overlap and pages are asked for in between. Without `Ȁ` they have another. -/
theorem canonical_answerAll_overlapping :
    let split : Segments := .insertBounds (.insertBounds .empty 0x61 0x150) 0x100 0x200
    let whole : Segments := .insertBounds .empty 0x61 0x200
    let shorter : Segments := .insertBounds .empty 0x61 0x1ff
    let calls : List Call := [.internClass split, .internPage Page.full, .internClass shorter,
      .compile whole, .internClass whole]
    (∀ call ∈ calls, ∀ set ∈ call.set?, ∀ seg ∈ set.toList, seg.last ≤ maxCode) ∧
      ∃ m n, (answerAll {} calls).2[0]? = some (.number m) ∧
        (answerAll {} calls).2[2]? = some (.number n) ∧
        (answerAll {} calls).2[4]? = some (.number m) ∧ m ≠ n := by
  intro split whole shorter calls
  have hcalls : ∀ call ∈ calls, ∀ set ∈ call.set?, ∀ seg ∈ set.toList, seg.last ≤ maxCode := by
    have hsplit : ∀ seg ∈ split.toList, seg.last ≤ maxCode := by decide
    have hwhole : ∀ seg ∈ whole.toList, seg.last ≤ maxCode := by decide
    have hshorter : ∀ seg ∈ shorter.toList, seg.last ≤ maxCode := by decide
    simp only [calls, List.forall_mem_cons, Call.set?, Option.mem_def, Option.some.injEq,
      forall_eq', reduceCtorEq, false_implies, implies_true, List.not_mem_nil, and_true, true_and]
    exact ⟨hsplit, hshorter, hwhole, hwhole⟩
  have hcanonical := canonical_answerAll calls hcalls
  obtain ⟨m, n, hm, hn, hne⟩ := hcanonical.same (i := 0) (j := 2) rfl rfl
  obtain ⟨m', k, hm', hk, heq⟩ := hcanonical.same (i := 0) (j := 4) rfl rfl
  rw [hm] at hm'
  cases hm'
  refine ⟨hcalls, m, n, hm, hn, ?_, fun h => ?_⟩
  · rw [hk, heq.2 fun code => ?_]
    simp only [split, whole, Segments.covers_insertBounds, Segments.not_covers_empty, or_false]
    omega
  · have := hne.1 h 0x200
    revert this
    simp only [split, shorter, Segments.covers_insertBounds, Segments.not_covers_empty, or_false]
    omega

end ClassCompiler

end Lexwright

import Lexwright.CharClass.Test
import Lexwright.Interner
import Lexwright.Segments.Basic

/-!
# `Lexwright.CharClass.Compiler`: tests for sets of codepoints

Equal pages, equal page maps and equal tests are stored once. A number is given when the value
is first met, so the numbers of earlier classes never change.

* `asciiBits`, `pageBits`: the bits of a set, below 128 and by page.
* `ClassCompiler.compile`: the test of a set.
* `ClassCompiler.tables`: the tables that the tests refer to.
-/

set_option autoImplicit false

namespace Lexwright

/-- The bits of the codepoints below 128. -/
def asciiBits (segs : List Seg) : BitVec 128 :=
  segs.foldr (fun s bits => bits ||| bitRange 128 s.first (min s.last 127)) 0

/-- The pages that a segment reaches from codepoint 128 on, each with its bits. -/
def Seg.pageRuns (s : Seg) : List (Nat × Page) :=
  let low := max s.first 128
  if s.last < low then []
  else
    (List.range' (low / 256) (s.last / 256 + 1 - low / 256)).map fun page =>
      -- only the first and the last page may be reached in part
      let firstBit := if page = low / 256 then low % 256 else 0
      let lastBit := if page = s.last / 256 then s.last % 256 else 255
      (page % 65536, bitRange 256 firstBit lastBit)

/-- Adds bits to a page of an increasing list of pages. -/
def addPage (page : Nat) (bits : Page) : List (Nat × Page) → List (Nat × Page)
  | [] => [(page, bits)]
  | (q, old) :: rest =>
    if page < q then (page, bits) :: (q, old) :: rest
    else if page = q then (q, old ||| bits) :: rest
    else (q, old) :: addPage page bits rest

/-- The bits of the codepoints from 128 on, by increasing page. -/
def pageBits (segs : List Seg) : List (Nat × Page) :=
  (segs.flatMap Seg.pageRuns).foldr (fun run found => addPage run.1 run.2 found) []

/-- The pages, page maps and tests met so far. -/
structure ClassCompiler where
  pages : Interner Page := .empty
  pageMaps : Interner (List PageEntry) := .empty
  classes : Interner ClassTest := .empty

namespace ClassCompiler

instance : Inhabited ClassCompiler := ⟨{}⟩

/-- The number of a page of bits. -/
def internPage (k : ClassCompiler) (bits : Page) : ClassCompiler × Nat :=
  let (pages, i, _) := k.pages.intern bits
  ({ k with pages }, i)

/-- The number of a page map, whose pages are given by their bits. -/
def internPageMap (k : ClassCompiler) (runs : List (Nat × Page)) : ClassCompiler × Nat :=
  let (pages, ids) := k.pages.internAll (runs.map (·.2))
  let entries := List.zipWith (fun run i => PageEntry.mk run.1 i) runs ids
  let (pageMaps, i, _) := k.pageMaps.intern entries
  ({ k with pages, pageMaps }, i)

/-- The test of a set. The test itself is not stored. -/
def compile (k : ClassCompiler) (s : Segments) : ClassCompiler × ClassTest :=
  let ascii := asciiBits s.toList
  match pageBits s.toList with
  | [] => (k, ⟨ascii, none⟩)
  | runs =>
    let (k, map) := k.internPageMap runs
    (k, ⟨ascii, some map⟩)

/-- The number of the test of a set. -/
def internClass (k : ClassCompiler) (s : Segments) : ClassCompiler × Nat :=
  let (k, test) := k.compile s
  let (classes, i, _) := k.classes.intern test
  ({ k with classes }, i)

/-- Bounds of the page maps when their entries are laid out one after another. -/
def bounds (start : Nat) : List (List PageEntry) → List (Nat × Nat)
  | [] => []
  | entries :: rest => (start, start + entries.length) :: bounds (start + entries.length) rest

/-- The tables that the tests refer to. -/
def tables (k : ClassCompiler) : ClassTables :=
  let maps := k.pageMaps.items.toList
  { pages := k.pages.items
    pageMaps := (bounds 0 maps).toArray
    pageEntries := maps.flatten.toArray }

end ClassCompiler

end Lexwright

import Lexwright.CharClass.Page

/-!
# `Lexwright.CharClass.Test`: membership of a character in a class

A class tests a codepoint below 128 against a word of its own. Any other codepoint is looked up
by its page: the page map of the class lists pages in increasing order, each with a page of bits
that classes share.

* `ClassTest`: the test of one class.
* `ClassTables`: the shared pages and page maps.
* `search`: the look-up in an increasing list.
-/

set_option autoImplicit false

namespace Lexwright

/-- The test of one class: its ASCII characters, and the number of the page map that holds its
other characters. -/
structure ClassTest where
  ascii : BitVec 128
  pageMap : Option Nat
deriving DecidableEq, Inhabited

namespace ClassTest

instance : LawfulBEq ClassTest := inferInstance

instance : Hashable ClassTest := ⟨fun t => mixHash (hash t.ascii.toNat) (hash t.pageMap)⟩

/-- Whether the class has no character beyond ASCII. -/
def isAsciiOnly (t : ClassTest) : Bool := t.pageMap.isNone

/-- Whether an ASCII codepoint is a member. No other codepoint is. -/
def matchesAscii (t : ClassTest) (code : Nat) : Bool := t.ascii.getLsbD code

end ClassTest

/-- One page of a page map: its number, and the number of its bits. -/
structure PageEntry where
  page : Nat
  bits : Nat
deriving DecidableEq, Inhabited

instance : LawfulBEq (List PageEntry) := inferInstance

instance : Hashable PageEntry := ⟨fun e => mixHash (hash e.page) (hash e.bits)⟩

/-- The pages that the classes of a lexer share. Page map `m` is the slice of `pageEntries` given
by the `m`-th pair of bounds, the last bound excluded. -/
structure ClassTables where
  pages : Array Page
  pageMaps : Array (Nat × Nat)
  pageEntries : Array PageEntry
deriving DecidableEq, Inhabited

/-- The page of a codepoint, a number of 16 bits. -/
def pageOf (code : Nat) : Nat := code / 256 % 65536

/-- Index, from `base` on, of the last of `size` entries whose page is at most `page`. The
interval is halved until one entry is left. -/
def search (entries : Array PageEntry) (page base size : Nat) : Nat :=
  if 1 < size then
    let half := size / 2
    let middle := base + half
    let base := if page < entries[middle]!.page then base else middle
    search entries page base (size - half)
  else base
termination_by size

namespace ClassTables

/-- The entries of a page map. -/
def pageMap (t : ClassTables) (map : Nat) : Array PageEntry :=
  match t.pageMaps[map]? with
  | some (first, last) => t.pageEntries.extract first last
  | none => #[]

/-- Looks a codepoint up in a page map. -/
def contains (t : ClassTables) (map code : Nat) : Bool :=
  match t.pageMaps[map]? with
  | none => false
  | some (first, last) =>
    if first < last then
      match t.pageEntries[search t.pageEntries (pageOf code) first (last - first)]? with
      | some entry => entry.page == pageOf code && t.pages[entry.bits]!.contains (code % 256)
      | none => false
    else false

end ClassTables

/-- Whether a character is a member of the class. -/
def ClassTest.contains (t : ClassTest) (tables : ClassTables) (c : Char) : Bool :=
  if c.toNat < 128 then t.matchesAscii c.toNat
  else match t.pageMap with
    | some map => tables.contains map c.toNat
    | none => false

end Lexwright

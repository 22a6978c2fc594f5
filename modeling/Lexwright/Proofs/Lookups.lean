import Lexwright.Proofs.Closed
import Lexwright.Proofs.CharClass.Membership
import Lexwright.Lexer.Scan

/-!
# `Lexwright.Proofs.Lookups`: no look-up in closed tables is out of range

A lexer looks into its tables without asking whether an entry is there. The functions of this
module look up what it looks up for a character, but they give nothing as soon as an index is out
of range or a slice does not lie in its array.

* `ClassTables.contains?`, `Tables.row?`, `Tables.step?`: the look-ups.
* `Tables.Fits`: what a step finds fits the tables.
* `Tables.Closed.step?`: in closed tables every look-up of a step gives what the step takes.
-/

set_option autoImplicit false

namespace Lexwright

/-! ### Look-ups that check their indices -/

/-- A slice of an array, if its bounds are in order and lie in the array. -/
def slice? {α : Type} (as : Array α) (bounds : Nat × Nat) : Option (Array α) :=
  if bounds.1 ≤ bounds.2 ∧ bounds.2 ≤ as.size then some (as.extract bounds.1 bounds.2) else none

/-- The search of a page. -/
def search? (entries : Array PageEntry) (page base size : Nat) : Option Nat :=
  if 1 < size then
    let half := size / 2
    let middle := base + half
    match entries[middle]? with
    | some entry => search? entries page (if page < entry.page then base else middle) (size - half)
    | none => none
  else some base
termination_by size

/-- The look-up of a codepoint in a page map. -/
def ClassTables.contains? (t : ClassTables) (map code : Nat) : Option Bool := do
  let bounds ← t.pageMaps[map]?
  let _ ← slice? t.pageEntries bounds
  if bounds.1 < bounds.2 then
    let found ← search? t.pageEntries (pageOf code) bounds.1 (bounds.2 - bounds.1)
    let entry ← t.pageEntries[found]?
    if entry.page = pageOf code then
      let page ← t.pages[entry.bits]?
      return page.contains (code % 256)
    else return false
  else return false

/-- The test of a character. -/
def ClassTest.contains? (t : ClassTest) (tables : ClassTables) (c : Char) : Option Bool :=
  if c.toNat < 128 then some (t.matchesAscii c.toNat)
  else match t.pageMap with
    | some map => tables.contains? map c.toNat
    | none => some false

namespace Tables

/-- The members of a row. -/
def row? (t : Tables) (r : Nat) : Option (Array Nat) := do
  let bounds ← t.rows[r]?
  slice? t.rowMembers bounds

/-- Whether a character belongs to a class. -/
def classContains? (t : Tables) (id : Nat) (c : Char) : Option Bool := do
  let test ← t.classes[id]?
  test.contains? t.classTables c

/-- Activates a state, unless it is marked. -/
def activate? (found : Marks × Array Nat) (q : Nat) : Option (Marks × Array Nat) :=
  if q < found.1.stamps.size then some (activate found q) else none

/-- Activates the row that a state leads to when it reads a character. -/
def stepState? (t : Tables) (c : Char) (found : (Marks × Array Nat) × Option Nat) (q : Nat) :
    Option ((Marks × Array Nat) × Option Nat) := do
  match ← t.transitions[q]? with
  | none => return found
  | some move =>
    if ← t.classContains? move.charClass c then
      let members ← t.row? move.nextRow
      let activated ← members.toList.foldlM activate? found.1
      let rule ← t.rowRules[move.nextRow]?
      return (activated, lowerRule found.2 rule)
    else return found

/-- The states that are active after one more character, and the rule that matches there. -/
def step? (t : Tables) (marks : Marks) (active : Array Nat) (c : Char) :
    Option ((Marks × Array Nat) × Option Nat) :=
  active.toList.foldlM (t.stepState? c) ((marks.renew, #[]), none)

end Tables

/-! ### Look-ups in closed tables -/

section Closed

variable {t : Tables} {c : Char} {id map code r n : Nat}

/-- Inside the entries, no look-up of the search fails. -/
theorem search?_eq {entries : Array PageEntry} {page base size : Nat}
    (h : base + size ≤ entries.size) :
    search? entries page base size = some (search entries page base size) := by
  fun_induction search entries page base size with
  | case1 base size hsize half middle next ih =>
    have hhalf : half = size / 2 := rfl
    have hmiddle : middle = base + half := rfl
    have hlt : middle < entries.size := by omega
    rw [search?, if_pos hsize]
    show (match entries[middle]? with
      | some entry => search? entries page (if page < entry.page then base else middle) (size - half)
      | none => none) = _
    have hnext : next = if page < entries[middle].page then base else middle := by
      show (if page < entries[middle]!.page then base else middle) = _
      rw [getElem!_pos entries middle hlt]
    rw [Array.getElem?_eq_getElem hlt]
    simp only
    rw [← hnext]
    refine ih ?_
    -- Both halves lie where the whole lies.
    rw [hnext]
    split <;> omega
  | case2 base size hsize => rw [search?, if_neg hsize]

/-- In closed tables, no look-up of the membership test fails. -/
theorem ClassTables.contains?_eq {t : ClassTables} (h : t.Closed) (hmap : map < t.pageMaps.size) :
    t.contains? map code = some (t.contains map code) := by
  have hbounds := Array.getElem?_eq_getElem hmap
  generalize t.pageMaps[map] = bounds at hbounds
  obtain ⟨hle, hend⟩ := h.slice bounds (Array.mem_of_getElem? hbounds)
  unfold contains? contains slice?
  simp only [hbounds, Option.bind_eq_bind, Option.bind_some, if_pos (And.intro hle hend)]
  by_cases hlt : bounds.1 < bounds.2
  · -- The search stays within the entries of the map.
    obtain ⟨-, hfound⟩ := search_mem t.pageEntries (pageOf code) bounds.1 (bounds.2 - bounds.1)
      (by omega)
    have hin : search t.pageEntries (pageOf code) bounds.1 (bounds.2 - bounds.1) <
        t.pageEntries.size := by omega
    have hentry := Array.getElem?_eq_getElem hin
    generalize t.pageEntries[search t.pageEntries (pageOf code) bounds.1 (bounds.2 - bounds.1)] =
      entry at hentry
    have hbits := h.bits entry (Array.mem_of_getElem? hentry)
    rw [if_pos hlt, if_pos hlt, search?_eq (by omega)]
    simp only [hentry, Option.bind_some, Array.getElem?_eq_getElem hbits,
      getElem!_pos t.pages entry.bits hbits]
    by_cases hpage : entry.page = pageOf code
    · simp [hpage]
    · simp [hpage]
  · rw [if_neg hlt, if_neg hlt]
    rfl

/-- In closed tables, the test of an existing class does not fail. -/
theorem Tables.Closed.classContains? (h : t.Closed) (hid : id < t.classes.size) :
    t.classContains? id c = some (t.classContains id c) := by
  have htest := Array.getElem?_eq_getElem hid
  unfold Tables.classContains? Tables.classContains
  rw [htest]
  show ClassTest.contains? _ _ _ = some (ClassTest.contains _ _ _)
  unfold ClassTest.contains? ClassTest.contains
  by_cases hascii : c.toNat < 128
  · rw [if_pos hascii, if_pos hascii]
  · rw [if_neg hascii, if_neg hascii]
    cases hmap : t.classes[id].pageMap with
    | none => rfl
    | some map =>
      exact ClassTables.contains?_eq h.classTables
        (h.pageMap _ (Array.mem_of_getElem? htest) map hmap)

/-- In closed tables, the look-up of an existing row does not fail. -/
theorem Tables.Closed.row? (h : t.Closed) (hr : r < t.rows.size) : t.row? r = some (t.row r) := by
  have hbounds := Array.getElem?_eq_getElem hr
  unfold Tables.row? Tables.row slice?
  simp only [hbounds, Option.bind_eq_bind, Option.bind_some,
    if_pos (h.slice _ (Array.mem_of_getElem? hbounds))]

/-- The members of a row are states. -/
theorem Tables.Closed.lt_of_mem_row (h : t.Closed) {q : Nat} (hq : q ∈ t.row r) :
    q < t.transitions.size := by
  unfold Tables.row at hq
  split at hq
  · refine h.member q ?_
    rw [← Array.mem_toList_iff, Array.toList_extract] at hq
    exact Array.mem_toList_iff.1 (List.mem_of_mem_drop (List.mem_of_mem_take hq))
  · exact absurd hq (Array.not_mem_empty q)

/-- A loop whose steps all succeed and keep an invariant succeeds, and keeps it. -/
theorem foldlM_eq_some {α β : Type} {f? : β → α → Option β} {f : β → α → β} {P : β → Prop}
    {as : List α} {b : β} (h : ∀ b, P b → ∀ a ∈ as, f? b a = some (f b a) ∧ P (f b a))
    (hb : P b) : as.foldlM f? b = some (as.foldl f b) ∧ P (as.foldl f b) := by
  induction as generalizing b with
  | nil => exact ⟨rfl, hb⟩
  | cons a as ih =>
    obtain ⟨hstep, hnext⟩ := h b hb a List.mem_cons_self
    rw [List.foldlM_cons, hstep]
    exact ih (fun b hb x hx => h b hb x (List.mem_cons_of_mem _ hx)) hnext

namespace Tables

/-- There is a stamp for each state, the active states are states, and the rule is a rule. -/
structure Fits (t : Tables) (found : (Marks × Array Nat) × Option Nat) : Prop where
  stamps : found.1.1.stamps.size = t.transitions.size
  active : ∀ q ∈ found.1.2, q < t.transitions.size
  rule : ∀ id ∈ found.2, id < t.terminals.size

/-- A new generation keeps the stamps of all the states. -/
theorem size_renew (m : Marks) : m.renew.stamps.size = m.stamps.size := by
  unfold Marks.renew
  split
  · exact Array.size_replicate
  · rfl

/-- States that are activated are states. -/
theorem Fits.activate {found : Marks × Array Nat} {rule : Option Nat} {q : Nat}
    (h : t.Fits (found, rule)) (hq : q < t.transitions.size) :
    activate? found q = some (Tables.activate found q) ∧ t.Fits (Tables.activate found q, rule) := by
  refine ⟨if_pos (h.stamps ▸ hq), ?_⟩
  unfold Tables.activate
  split
  · exact h
  · refine ⟨Array.size_setIfInBounds.trans h.stamps, fun p hp => ?_, h.rule⟩
    rcases Array.mem_push.1 hp with hp | rfl
    · exact h.active p hp
    · exact hq

/-- The lower of two existing rules exists. -/
theorem Closed.lowerRule_lt {rule rule' : Option Nat} (h : ∀ id ∈ rule, id < n)
    (h' : ∀ id ∈ rule', id < n) : ∀ id ∈ lowerRule rule rule', id < n := by
  intro id hid
  cases rule with
  | none => exact h' id hid
  | some a =>
    cases rule' with
    | none => exact h id hid
    | some b =>
      cases hid
      exact Nat.lt_of_le_of_lt (Nat.min_le_left a b) (h a rfl)

/-- In closed tables, no look-up of an active state fails, and the states that it activates
exist. -/
theorem Closed.stepState? (h : t.Closed) {found : (Marks × Array Nat) × Option Nat} {q : Nat}
    (hfound : t.Fits found) (hq : q < t.transitions.size) :
    t.stepState? c found q = some (t.stepState c found q) ∧ t.Fits (t.stepState c found q) := by
  have htransition := Array.getElem?_eq_getElem hq
  unfold Tables.stepState? stepState target?
  rw [htransition]
  cases hmove : t.transitions[q] with
  | none => exact ⟨rfl, hfound⟩
  | some move =>
    obtain ⟨hclass, hrow⟩ := h.transition move
      (hmove ▸ Array.mem_of_getElem? htransition)
    simp only [Option.bind_eq_bind, Option.bind_some, Option.join_some,
      h.classContains? hclass]
    cases t.classContains move.charClass c with
    | false => exact ⟨rfl, hfound⟩
    | true =>
      -- The move is made: its row exists, and all the states of the row exist.
      obtain ⟨rule, hrule, hlt⟩ := h.rowRule move.nextRow hrow
      obtain ⟨hloop, hfits⟩ := @foldlM_eq_some _ _ activate? activate
        (fun activated => t.Fits (activated, found.2)) (t.row move.nextRow).toList found.1
        (fun activated hactivated p hp =>
          hactivated.activate (h.lt_of_mem_row (Array.mem_toList_iff.1 hp))) hfound
      simp only [if_true, h.row? hrow, Option.bind_some, hloop, hrule, Array.foldl_toList]
      rw [Array.foldl_toList] at hfits
      have hrowRule : t.rowRule move.nextRow = rule := by
        unfold Tables.rowRule
        rw [hrule]
        rfl
      rw [hrowRule]
      exact ⟨rfl, hfits.stamps, hfits.active, lowerRule_lt hfound.rule hlt⟩

/-- A step that checks everything is a step, and what it finds fits the tables. -/
theorem Closed.step? (h : t.Closed) {marks : Marks} {active : Array Nat}
    (hmarks : marks.stamps.size = t.transitions.size)
    (hactive : ∀ q ∈ active, q < t.transitions.size) :
    t.step? marks active c = some (t.step marks active c) ∧ t.Fits (t.step marks active c) := by
  unfold Tables.step? step
  rw [← Array.foldl_toList]
  refine foldlM_eq_some (fun found hfound q hq =>
    h.stepState? hfound (hactive q (Array.mem_toList_iff.1 hq))) ?_
  exact ⟨(size_renew marks).trans hmarks, fun q hq => absurd hq (Array.not_mem_empty q),
    fun id hid => (nomatch hid)⟩

end Tables

end Closed

end Lexwright

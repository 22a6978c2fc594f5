import Mathlib.Data.Finset.Card
import Mathlib.Data.Finset.Dedup
import Lexwright.Proofs.Interner.Calls
import Lexwright.SortedSet

/-!
# `Lexwright.Proofs.StateSet`: the numbers of sets of states

A set of states is put together from states and other sets, in any order and with repetitions. Its
number tells how many other sets were met before it was met itself, and nothing else.

* `StateSet.Build`: the ways to put a set together. `Build.members` says which states the set has,
  and `Build.run_eq_iff` that the set depends on these only.
* `StateSet.size_numbers`: an interner has as many numbers as it was given different sets.
* `StateSet.Numbered`: what the calls to a new interner answer, and what the numbers denote.
* `StateSet.numbered_of_calls`: all this holds of any calls.
-/

set_option autoImplicit false

namespace Lexwright.StateSet

/-! ### Sets that are put together -/

/-- How a set is put together. -/
inductive Build where
  | empty
  | ofList (states : List Nat)
  | insert (set : Build) (state : Nat)
  | extend (set other : Build)

namespace Build

/-- The set. -/
def run : Build → StateSet
  | empty => .empty
  | ofList states => .ofList states
  | insert set state => SortedSet.insert set.run state
  | extend set other => SortedSet.union set.run other.run

/-- The states that were put into the set. -/
def members : Build → Finset Nat
  | empty => ∅
  | ofList states => states.toFinset
  | insert set state => Insert.insert state set.members
  | extend set other => set.members ∪ other.members

/-- A set has the states that were put into it, in whatever order. -/
theorem mem_run {q : Nat} : ∀ {b : Build}, q ∈ b.run ↔ q ∈ b.members
  | empty => iff_of_false (SortedSet.not_mem_empty q) (Finset.notMem_empty q)
  | ofList states => SortedSet.mem_ofList.trans List.mem_toFinset.symm
  | insert set state => by rw [run, SortedSet.mem_insert, members, Finset.mem_insert, mem_run]
  | extend set other => by rw [run, SortedSet.mem_union, members, Finset.mem_union, mem_run, mem_run]

/-- A set depends on its states only, and not on how it was put together. -/
theorem run_eq_iff {b c : Build} : b.run = c.run ↔ b.members = c.members := by
  constructor
  · intro h
    ext q
    rw [← mem_run, h, mem_run]
  · intro h
    refine SortedSet.ext fun q => ?_
    rw [mem_run, h, mem_run]

/-- The states that were put into a set are those that it lists. -/
theorem members_eq_toFinset (b : Build) : b.members = b.run.toList.toFinset := by
  ext q
  rw [List.mem_toFinset, SortedSet.mem_toList, mem_run]

end Build

/-- A set is determined by the states that it lists: their order is fixed. -/
theorem toFinset_injective : Function.Injective fun s : StateSet => s.toList.toFinset := by
  intro s t h
  refine SortedSet.ext fun q => ?_
  have hq := Finset.ext_iff.1 h q
  rwa [List.mem_toFinset, List.mem_toFinset] at hq

/-! ### Numbers -/

/-- How many different sets there are, by their states. -/
def distinct (builds : List Build) : Nat := (builds.map Build.members).toFinset.card

/-- A new interner that was given the first `i` of the sets. -/
def numbers (builds : List Build) (i : Nat) : Interner StateSet :=
  .after (builds.map Build.run) i

/-- The same, with words of 32 bits for the numbers. -/
def wordNumbers (builds : List Build) (i : Nat) : WordInterner StateSet :=
  .after (builds.map Build.run) i

/-- The calls to a new interner, one for each of the sets, and what their numbers denote. -/
structure Numbered (builds : List Build) : Prop where
  /-- A set whose states are those of no earlier one gets the number of the different sets so far. -/
  fresh : ∀ {i : Nat} {b : Build}, builds[i]? = some b →
    (∀ c ∈ builds.take i, c.members ≠ b.members) →
    ((numbers builds i).intern b.run).2 = (distinct (builds.take i), true)
  /-- A set with the states of an earlier one gets its number. -/
  known : ∀ {i j : Nat} {b c : Build}, j < i → builds[j]? = some c → builds[i]? = some b →
    c.members = b.members →
    ((numbers builds i).intern b.run).2 = (((numbers builds j).intern c.run).2.1, false)
  /-- After every later call the number still denotes the set, and the set has this number. -/
  denotes : ∀ {j k : Nat} {c : Build}, j < k → builds[j]? = some c →
    (numbers builds k).get? ((numbers builds j).intern c.run).2.1 = some c.run ∧
      (numbers builds k).id? c.run = some ((numbers builds j).intern c.run).2.1
  /-- At any time, numbers and sets determine each other. -/
  inverse : ∀ (i id : Nat) (set : StateSet),
    (numbers builds i).get? id = some set ↔ (numbers builds i).id? set = some id
  /-- The sets are listed in the order of their numbers, which is that of their first calls. -/
  listed : ∀ i : Nat, (numbers builds i).items.toList = ((builds.take i).map Build.run).eraseDups ∧
    (∀ id, (numbers builds i).items.toList[id]? = (numbers builds i).get? id) ∧
    (numbers builds i).items.toList.length = distinct (builds.take i)
  /-- All this holds of words of 32 bits: the sets are the same, a word and its set determine each
  other, and a call answers with the word that holds the number. -/
  words : ∀ i : Nat, (wordNumbers builds i).items = (numbers builds i).items ∧
    (∀ (set : StateSet) (id : UInt32), (wordNumbers builds i).ids[set]? = some id ↔
      (wordNumbers builds i).items[id.toNat]? = some set) ∧
    ∀ b, builds[i]? = some b →
      ((wordNumbers builds i).intern b.run).2.1.toNat = ((numbers builds i).intern b.run).2.1 ∧
      ((wordNumbers builds i).intern b.run).2.2 = ((numbers builds i).intern b.run).2.2

variable {builds : List Build} {i j k : Nat} {b c : Build}

/-- The sets are those that the calls were made with. -/
theorem getElem?_run (h : builds[i]? = some b) : (builds.map Build.run)[i]? = some b.run := by
  rw [List.getElem?_map, h, Option.map_some]

/-- The interner holds the sets of the calls in the order of their first call. -/
theorem toList_numbers (builds : List Build) (i : Nat) :
    (numbers builds i).items.toList = ((builds.take i).map Build.run).eraseDups := by
  rw [numbers, Interner.toList_after, List.map_take]

/-- There are as many numbers as there are different sets. -/
theorem size_numbers (builds : List Build) (i : Nat) :
    (numbers builds i).size = distinct (builds.take i) := by
  have hmembers : ((builds.take i).map Build.members).toFinset =
      ((numbers builds i).items.toList.map fun s => s.toList.toFinset).toFinset := by
    ext states
    simp only [toList_numbers, List.mem_toFinset, List.mem_map, List.mem_eraseDups,
      Build.members_eq_toFinset, exists_exists_and_eq_and]
  have hnodup := (numbers builds i).nodup_items.map toFinset_injective
  rw [distinct, hmembers, List.toFinset_card_of_nodup hnodup, List.length_map]
  exact Array.length_toList.symm

/-- The first calls were made with no more sets than all the calls. -/
theorem distinct_take_le (builds : List Build) (i : Nat) :
    distinct (builds.take i) ≤ distinct builds := by
  refine Finset.card_le_card fun states h => ?_
  rw [List.mem_toFinset, List.map_take] at h
  exact List.mem_toFinset.2 (List.mem_of_mem_take h)

/-- The number that a call gives denotes its set from then on. -/
theorem get?_numbers (hjk : j < k) (hc : builds[j]? = some c) :
    (numbers builds k).get? ((numbers builds j).intern c.run).2.1 = some c.run :=
  Interner.get?_after hjk (getElem?_run hc)

/-- A call gives a number below the number of all the different sets. -/
theorem intern_lt_distinct (hb : builds[i]? = some b) :
    ((numbers builds i).intern b.run).2.1 < distinct builds := by
  have hlt := Interner.lt_size (get?_numbers (Nat.lt_succ_self i) hb)
  rw [size_numbers] at hlt
  exact Nat.lt_of_lt_of_le hlt (distinct_take_le builds (i + 1))

/-- Calls to a new interner, with fewer than 2 ^ 32 different sets, number the sets in the order in
which they are met. -/
theorem numbered_of_calls (builds : List Build) (hfew : distinct builds < UInt32.size) :
    Numbered builds where
  fresh := fun {i b} hb hnew => by
    have hid : (numbers builds i).id? b.run = none := by
      rw [numbers, Interner.id?_after_eq_none_iff, ← List.map_take, List.mem_map]
      rintro ⟨c, hc, hrun⟩
      exact hnew c hc (Build.run_eq_iff.1 hrun)
    rw [Interner.intern_of_new hid, size_numbers]
  known := fun {i j b c} hji hc hb hmembers => by
    have hget := get?_numbers hji hc
    rw [Build.run_eq_iff.2 hmembers] at hget ⊢
    rw [Interner.intern_of_known (Interner.id?_eq_some_iff.2 hget)]
  denotes := fun hjk hc =>
    ⟨get?_numbers hjk hc, Interner.id?_eq_some_iff.2 (get?_numbers hjk hc)⟩
  inverse _ _ _ := Interner.id?_eq_some_iff.symm
  listed i := by
    refine ⟨toList_numbers builds i, fun id => Array.getElem?_toList, ?_⟩
    rw [← size_numbers]
    exact Array.length_toList
  words i := by
    have hstores : (wordNumbers builds i).Stores (numbers builds i) :=
      WordInterner.stores_after _ i
    refine ⟨hstores.items, fun set id => hstores.ids_eq_some_iff ?_, fun b hb => ?_⟩
    · rw [size_numbers]
      exact Nat.le_of_lt (Nat.lt_of_le_of_lt (distinct_take_le builds i) hfew)
    · -- There are fewer sets than words, so the number of this one fits.
      have hlt := Nat.lt_trans (intern_lt_distinct hb) hfew
      rw [(hstores.intern b.run).2]
      exact ⟨UInt32.toNat_ofNat_of_lt' hlt, rfl⟩

/-- Sets of three kinds, in five calls. The first, the second and the last are one set. -/
def assorted : List Build :=
  [.ofList [3, 1, 2, 3], .insert (.insert (.insert .empty 2) 3) 1, .empty,
    .extend (.ofList [7]) (.ofList [7, 5]), .extend (.ofList [2]) (.insert (.ofList [1]) 3)]

/-- The last call gives the number of the first one, and the two new sets between them have the
numbers that follow. -/
theorem numbered_of_calls_assorted : distinct assorted < UInt32.size ∧
    ((numbers assorted 0).intern (Build.run (.ofList [3, 1, 2, 3]))).2 = (0, true) ∧
    ((numbers assorted 3).intern (Build.run (.extend (.ofList [7]) (.ofList [7, 5])))).2 =
      (2, true) ∧
    ((numbers assorted 4).intern
      (Build.run (.extend (.ofList [2]) (.insert (.ofList [1]) 3)))).2 = (0, false) ∧
    (numbers assorted 5).get? 2 = some (Build.run (.ofList [5, 7])) := by
  have hfew : distinct assorted < UInt32.size := by decide
  have hnumbered := numbered_of_calls assorted hfew
  have hfirst := hnumbered.fresh (i := 0) rfl (by decide)
  have hnew := hnumbered.fresh (i := 3) rfl (by decide)
  have hlast := hnumbered.known (i := 4) (j := 0) (by decide) rfl rfl (by decide)
  refine ⟨hfew, hfirst, hnew, ?_, ?_⟩
  · rw [hlast, hfirst]
    rfl
  · have hget := (hnumbered.denotes (j := 3) (k := 5) (by decide) rfl).1
    rw [hnew] at hget
    refine hget.trans (congrArg some (Build.run_eq_iff.2 ?_))
    decide

end Lexwright.StateSet

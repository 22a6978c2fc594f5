import Lexwright.Proofs.Diagnostics

/-!
# `Lexwright.Proofs.Automaton.Canonical`: which rows there are, and in which order

The search for rows is a worklist: while a row is gone through, the rows of the targets of its
members are put behind it, unless they are there. So the rows are the sets that were met, each at
the place where it was met first.

* `Automaton.Grown`: each row but the first is a successor of a row before it.
* `RowSearch.Lists`: the rows are the sets that were met, without repetition. `lists_meet` is the
  step, and `orderly_rowsFrom` the loop: at the end, what was met is the start set and the
  successors of all the rows.
* `Automaton.Grown.length_le`: rows without repetition are at most one more than the states that
  have a move.
* `Rows.CanonicalRange`: all this of the rows of one lexical state, where the rows of all lexical
  states are laid out.
* `rows_canonical`: the rows of a lexicon.
-/

set_option autoImplicit false

namespace Lexwright

variable {a : Automaton} {lexicon : Lexicon} {options : Options} {i q r : Nat}
  {start set row : StateSet} {rows met : List StateSet}

/-! ### Successors -/

namespace Automaton

/-- The closure of the target of a state's move. -/
def next? (a : Automaton) (q : Nat) : Option StateSet := (a.move? q).map fun m => a.closure m.2

/-- The closures of the targets of the moves of a set's members, in the order of the members. -/
def successors (a : Automaton) (set : StateSet) : List StateSet := set.toList.filterMap a.next?

/-- Whether a state belongs to a lexical state and has a move. -/
def isMover (i : Nat) (s : State) : Bool := s.lexState = i && s.move.isSome

/-- Number of states of a lexical state that have a move. -/
def moverCount (a : Automaton) (i : Nat) : Nat := a.states.toList.countP (isMover i)

/-- A move leads to the closure of its target. -/
theorem next?_of_move {move : Segments} {target : Nat} (h : a.move? q = some (move, target)) :
    a.next? q = some (a.closure target) := by
  simp [next?, h]

/-- The successors of a row are the closures of the targets of its states. -/
theorem mem_successors : set ∈ a.successors row ↔ ∃ q ∈ row, a.next? q = some set :=
  List.mem_filterMap

/-- Rows that are found one after another: each is a successor of a row before it, but for the
first. -/
inductive Grown (a : Automaton) (start : StateSet) : List StateSet → Prop
  | start : Grown a start [start]
  | grow {rows : List StateSet} {row set : StateSet} : Grown a start rows → row ∈ rows →
      set ∈ a.successors row → Grown a start (rows ++ [set])

namespace Grown

/-- A search begins with the set that it was started with. -/
theorem head? (h : a.Grown start rows) : rows.head? = some start := by
  induction h with
  | start => rfl
  | grow _ _ _ ih => simp [List.head?_append, ih]

/-- The row before it is at a lower place. -/
theorem exists_before (h : a.Grown start rows) {k : Nat} (hk : 0 < k)
    (hset : rows[k]? = some set) :
    ∃ j row, j < k ∧ rows[j]? = some row ∧ set ∈ a.successors row := by
  induction h generalizing set with
  | start =>
    rw [List.getElem?_singleton, if_neg (Nat.ne_of_gt hk)] at hset
    cases hset
  | @grow rows row last _ hrow hlast ih =>
    have hleft : ∀ {j : Nat} {s : StateSet}, rows[j]? = some s →
        (rows ++ [last])[j]? = some s := by
      intro j s hj
      rw [List.getElem?_append_left (List.getElem?_eq_some_iff.1 hj).1]
      exact hj
    rcases Nat.lt_or_ge k rows.length with hlt | hge
    · rw [List.getElem?_append_left hlt] at hset
      obtain ⟨j, row, hj, hget, hsucc⟩ := ih hset
      exact ⟨j, row, hj, hleft hget, hsucc⟩
    · -- The row at this place was added last, behind the row of which it is a successor.
      rw [List.getElem?_append_right hge] at hset
      have hsame : set = last := by
        simpa using List.mem_of_getElem? hset
      obtain ⟨j, hj⟩ := List.getElem?_of_mem hrow
      have hlt := (List.getElem?_eq_some_iff.1 hj).1
      exact ⟨j, row, by omega, hleft hj, hsame ▸ hlast⟩

/-- Every set but the first is a successor of a set before it. -/
theorem mem_iff (h : a.Grown start rows) (hset : set ∈ rows) :
    set = start ∨ ∃ row ∈ rows, set ∈ a.successors row := by
  obtain ⟨k, hk⟩ := List.getElem?_of_mem hset
  rcases Nat.eq_zero_or_pos k with rfl | hpos
  · have hhead := h.head?
    rw [List.head?_eq_getElem?, hk] at hhead
    exact Or.inl (Option.some.inj hhead)
  · obtain ⟨j, row, -, hrow, hsucc⟩ := h.exists_before hpos hk
    exact Or.inr ⟨row, List.mem_of_getElem? hrow, hsucc⟩

/-- There is at most one row for each state with a move, besides the first. -/
theorem length_le (h : a.Grown start rows) (hnodup : rows.Nodup)
    (hmembers : ∀ row ∈ rows, ∀ q ∈ row, a.InLexState i q) :
    rows.length ≤ 1 + a.moverCount i := by
  -- The rows are the start set and closures of targets, and each moving state has one target.
  let targets := (a.states.toList.filter (isMover i)).filterMap fun s =>
    s.move.map fun m => a.closure m.2
  have hsub : rows ⊆ start :: targets := by
    intro set hset
    rcases h.mem_iff hset with rfl | ⟨row, hrow, hsucc⟩
    · exact List.mem_cons_self
    · obtain ⟨q, hq, hnext⟩ := mem_successors.1 hsucc
      obtain ⟨s, hs, hlex⟩ := hmembers row hrow q hq
      obtain ⟨m, hmove, hclosure⟩ := Option.map_eq_some_iff.1 hnext
      have hmove' : s.move = some m := by
        rw [move?, hs] at hmove
        exact hmove
      refine List.mem_cons_of_mem _ (List.mem_filterMap.2 ⟨s, ?_, by simp [hmove', hclosure]⟩)
      rw [List.mem_filter, Array.mem_toList_iff]
      exact ⟨Array.mem_of_getElem? hs, by simp [isMover, hlex, hmove']⟩
  calc rows.length
      ≤ (start :: targets).length := (hnodup.subperm hsub).length_le
    _ ≤ (a.states.toList.filter (isMover i)).length + 1 :=
        Nat.succ_le_succ (List.length_filterMap_le ..)
    _ = 1 + a.moverCount i := by
        rw [← List.countP_eq_length_filter, Nat.add_comm]
        rfl

end Grown

end Automaton

/-! ### The search of one lexical state -/

namespace RowSearch

variable {s : RowSearch}

/-- The rows are the sets that were met, each at the place where it was met first. -/
def Lists (s : RowSearch) (met : List StateSet) : Prop := s.rows.items.toList = met.eraseDups

/-- Rows are found one after another, and what is noted is noted of their members. -/
structure Orderly (a : Automaton) (i : Nat) (start : StateSet) (s : RowSearch) : Prop
    extends s.Sound a i start where
  grown : a.Grown start s.rows.items.toList
  noted : ∀ {q id : Nat}, s.next[q]? = some id → ∃ row ∈ s.rows.items.toList, q ∈ row

/-- The sets that were met are those that are stored. -/
theorem Lists.mem_iff (h : s.Lists met) : set ∈ met ↔ set ∈ s.rows.items.toList := by
  rw [show s.rows.items.toList = met.eraseDups from h, List.mem_eraseDups]

/-- A set that was met before changes nothing. -/
theorem Lists.append_of_mem (h : s.Lists met) (hset : set ∈ s.rows.items.toList) :
    s.Lists (met ++ [set]) := by
  have hmet : set ∈ met := h.mem_iff.2 hset
  show s.rows.items.toList = (met ++ [set]).eraseDups
  rw [List.eraseDups_append, show s.rows.items.toList = met.eraseDups from h]
  simp [List.removeAll, hmet]

/-- When a state is gone through, its successor is met. -/
theorem Sound.lists_meet (hs : s.Sound a i start) (h : s.Lists met) (q : Nat) :
    ((Engine.ofAutomaton a).meet s q).Lists (met ++ (a.next? q).toList) := by
  unfold Engine.meet
  split
  · rename_i hmove
    rw [show a.next? q = none by simp [Automaton.next?, show a.move? q = none from hmove]]
    simpa using h
  · rename_i move target hmove
    rw [show a.next? q = some (a.closure target) from Automaton.next?_of_move hmove]
    split
    · rename_i hold
      -- The row of this state was noted, so its successor was met.
      rw [Std.HashMap.contains_eq_isSome_getElem?] at hold
      obtain ⟨id, hid⟩ := Option.isSome_iff_exists.1 hold
      obtain ⟨move', target', hmove', hrow⟩ := hs.target hid
      rw [show a.move? q = some (move, target) from hmove] at hmove'
      cases hmove'
      refine h.append_of_mem ?_
      rw [Array.mem_toList_iff]
      exact Array.mem_of_getElem? hrow
    · rw [Engine.closure_ofAutomaton]
      exact Interner.toList_intern h

/-- Meeting a state of a stored row keeps the search in order. -/
theorem Orderly.meet (h : a.Implements lexicon) (hs : s.Orderly a i start)
    (hrow : row ∈ s.rows.items.toList) (hq : q ∈ row) :
    ((Engine.ofAutomaton a).meet s q).Orderly a i start := by
  obtain ⟨r, hr⟩ := List.getElem?_of_mem hrow
  rw [Array.getElem?_toList] at hr
  refine { hs.toSound.meet h (hs.members hr hq) with grown := ?_, noted := ?_ }
  -- A state without a move changes nothing, and neither does a row that is known already.
  all_goals unfold Engine.meet; split
  · exact hs.grown
  · -- A new row is what the row of the state steps to.
    rename_i move target hmove
    split
    · exact hs.grown
    · rw [Engine.closure_ofAutomaton]
      rcases Interner.toList_intern_known_or_new s.rows (a.closure target) with heq | heq
      · simpa only [heq] using hs.grown
      · simp only [heq]
        exact hs.grown.grow hrow (Automaton.mem_successors.2 ⟨q, hq, Automaton.next?_of_move hmove⟩)
  · exact hs.noted
  · rename_i move target hmove
    split
    · exact hs.noted
    · intro p id hp
      have hold : ∀ {row : StateSet}, row ∈ s.rows.items.toList →
          row ∈ (s.rows.intern ((Engine.ofAutomaton a).closure target)).1.items.toList := by
        intro row hrow
        rw [Interner.mem_items_iff] at hrow ⊢
        obtain ⟨k, hk⟩ := Option.isSome_iff_exists.1 hrow
        rw [(Interner.extends_intern _ _).id? hk]
        rfl
      rw [Std.HashMap.getElem?_insert] at hp
      split at hp
      · rename_i heq
        rw [← eq_of_beq heq]
        exact ⟨row, hold hrow, hq⟩
      · obtain ⟨row', hrow', hp'⟩ := hs.noted hp
        exact ⟨row', hold hrow', hp'⟩

/-- The members of a row are gone through: their successors are met in their order. -/
theorem Orderly.foldl_meet (h : a.Implements lexicon) (hs : s.Orderly a i start)
    (hlists : s.Lists met) (hrow : row ∈ s.rows.items.toList) (members : List Nat)
    (hmembers : ∀ q ∈ members, q ∈ row) :
    (members.foldl (Engine.ofAutomaton a).meet s).Orderly a i start ∧
      (members.foldl (Engine.ofAutomaton a).meet s).Lists (met ++ members.filterMap a.next?) := by
  induction members generalizing s met with
  | nil => simpa using And.intro hs hlists
  | cons q rest ih =>
    have hmet := hs.meet h hrow (hmembers q List.mem_cons_self)
    have hrow' : row ∈ ((Engine.ofAutomaton a).meet s q).rows.items.toList := by
      rw [Interner.mem_items_iff] at hrow ⊢
      obtain ⟨k, hk⟩ := Option.isSome_iff_exists.1 hrow
      rw [(extends_meet s q).rows.id? hk]
      rfl
    have hrest := ih hmet (hs.lists_meet hlists q) hrow'
      fun p hp => hmembers p (List.mem_cons_of_mem _ hp)
    have happend : met ++ (q :: rest).filterMap a.next? =
        met ++ (a.next? q).toList ++ rest.filterMap a.next? := by
      cases hq : a.next? q <;> simp [hq]
    rw [List.foldl_cons, happend]
    exact hrest

/-- The rows are gone through one after another. What was met at row `row` is the start set and
the successors of the rows before it. -/
theorem orderly_rowsFrom (h : a.Implements lexicon) (row : Nat) (hs : s.Orderly a i start)
    (hlists : s.Lists (start :: (s.rows.items.toList.take row).flatMap a.successors)) :
    ((Engine.ofAutomaton a).rowsFrom row s).Orderly a i start ∧
      ((Engine.ofAutomaton a).rowsFrom row s).Lists (start ::
        ((Engine.ofAutomaton a).rowsFrom row s).rows.items.toList.flatMap a.successors) := by
  fun_induction Engine.rowsFrom (Engine.ofAutomaton a) row s with
  | case1 row s hnone =>
    -- No row is left, so all of them were gone through.
    have hle : s.rows.items.toList.length ≤ row := Array.getElem?_eq_none_iff.1 hnone
    rw [List.take_of_length_le hle] at hlists
    exact ⟨hs, hlists⟩
  | case2 row s set hset hlt _ _ ih =>
    have hget : s.rows.items.toList[row]? = some set := by
      rw [Array.getElem?_toList]
      exact hset
    obtain ⟨hs', hlists'⟩ := hs.foldl_meet h hlists (List.mem_of_getElem? hget) set.toList
      fun q hq => hq
    obtain ⟨-, hext, -⟩ := RowSearch.foldl_meet h hs.toSound set.toList
      fun q hq => hs.members hset hq
    refine ih hs' ?_
    -- The rows up to this one are the same after its members were gone through.
    have htake : (set.toList.foldl (Engine.ofAutomaton a).meet s).rows.items.toList.take (row + 1) =
        s.rows.items.toList.take row ++ [set] := by
      rw [hext.rows.take_eq hlt, List.take_add_one, hget]
      rfl
    rw [htake, List.flatMap_append, List.flatMap_singleton, ← List.cons_append]
    exact hlists'

end RowSearch

/-- The rows of a lexical state that has a move in its start set. -/
theorem Engine.orderly_lexRows (h : a.Implements lexicon) {info : LexStateInfo}
    (hinfo : a.lexStates[i]? = some info) {s : RowSearch}
    (hs : (ofAutomaton a).lexRows i = some s) :
    s.Orderly a i (a.closure info.start) ∧
      s.Lists (a.closure info.start :: s.rows.items.toList.flatMap a.successors) := by
  rw [lexRows_eq hinfo] at hs
  split at hs
  · obtain rfl := Option.some.inj hs
    have hmembers : ∀ q ∈ a.closure info.start, a.InLexState i q := fun q hq =>
      h.inLexState_of_mem_closure (h.start hinfo).1 hq
    have hlists : (Interner.empty.intern (a.closure info.start)).1.items.toList =
        ([] ++ [a.closure info.start]).eraseDups := Interner.toList_intern rfl
    have hgrown : a.Grown (a.closure info.start)
        (Interner.empty.intern (a.closure info.start)).1.items.toList := by
      rw [hlists, List.nil_append, List.eraseDups_cons]
      exact .start
    refine RowSearch.orderly_rowsFrom h 0
      ⟨RowSearch.sound_start hmembers, hgrown, fun {q id} hq => ?_⟩ ?_
    · rw [Std.HashMap.getElem?_empty] at hq
      cases hq
    · simpa [RowSearch.Lists] using hlists
  · cases hs

/-! ### All the lexical states -/

namespace Rows

variable {t : Rows}

/-- Rows that follow each other, from number `first` on. -/
def slice (t : Rows) (first count : Nat) : List StateSet := (t.rows.toList.drop first).take count

/-- The rows from `first` on are those of a lexical state that begins with the set `start`. -/
structure CanonicalRange (t : Rows) (a : Automaton) (i : Nat) (start : StateSet)
    (first count : Nat) : Prop where
  length : (t.slice first count).length = count
  head? : (t.slice first count).head? = some start
  nodup : (t.slice first count).Nodup
  /-- Each row but the first is a successor of a row before it. -/
  before : ∀ {k : Nat} {set : StateSet}, 0 < k → (t.slice first count)[k]? = some set →
    ∃ j row, j < k ∧ (t.slice first count)[j]? = some row ∧ set ∈ a.successors row
  /-- They are in the order in which the rows and their members lead to them. -/
  order : t.slice first count = (start :: (t.slice first count).flatMap a.successors).eraseDups
  /-- A member that has a move leads to a row of the same lexical state. -/
  next : ∀ {row : StateSet} {q target : Nat} {move : Segments}, row ∈ t.slice first count →
    q ∈ row → a.move? q = some (move, target) → ∃ k, t.nextRows[q]? = some (some (first + k)) ∧
      (t.slice first count)[k]? = some (a.closure target)
  count_le : count ≤ 1 + a.moverCount i

/-- The rows are those that the lexical states have, and nothing else is kept. -/
structure Canonical (t : Rows) (a : Automaton) : Prop where
  noRows : ∀ {i : Nat} {info : LexStateInfo}, a.lexStates[i]? = some info →
    (∀ q ∈ a.closure info.start, a.move? q = none) → t.lexStates[i]? = some none
  range : ∀ {i : Nat} {info : LexStateInfo}, a.lexStates[i]? = some info →
    (¬∀ q ∈ a.closure info.start, a.move? q = none) →
      ∃ first count, t.lexStates[i]? = some (some (first, count)) ∧
        t.CanonicalRange a i (a.closure info.start) first count
  /-- The lexical states have all the rows, one state after another. -/
  rows_eq : t.rows.toList =
    t.lexStates.toList.flatMap fun bound => (bound.map fun b => t.slice b.1 b.2).getD []
  /-- A row accepts the rule of the lowest ordinal that a member accepts. -/
  accept : ∀ {r : Nat} {set : StateSet}, t.rows[r]? = some set →
    ∃ acc, t.accepts[r]? = some acc ∧ a.AcceptsLowest set acc
  next_none : ∀ {q : Nat} {state : State}, a.states[q]? = some state →
    (a.move? q = none ∨ ∀ row ∈ t.rows.toList, q ∉ row) → t.nextRows[q]? = some none

/-- The bounds cut the rows into the rows of the searches. The induction moves each search to the
front once it is passed. -/
theorem flatMap_bounds (front : List StateSet) (searches : List (Option RowSearch)) :
    ((bounds front.length searches).flatMap fun bound =>
      (bound.map fun b =>
        ((front ++ searches.flatMap itemsOf).drop b.1).take b.2).getD []) =
      searches.flatMap itemsOf := by
  induction searches generalizing front with
  | nil => rfl
  | cons search rest ih =>
    have hrest := ih (front ++ itemsOf search)
    cases search with
    | none => simpa [bounds, itemsOf] using hrest
    | some s =>
      have hsize : s.rows.items.toList.length = s.rows.size := rfl
      simp only [bounds, List.flatMap_cons, Option.map_some, Option.getD_some]
      simp only [itemsOf, Option.map_some, Option.getD_some, List.length_append, hsize,
        List.append_assoc] at hrest ⊢
      rw [hrest, List.drop_left, ← hsize, List.take_left]

/-- Every lexical state has bounds, also one without rows. -/
theorem length_bounds (first : Nat) (searches : List (Option RowSearch)) :
    (bounds first searches).length = searches.length := by
  induction searches generalizing first with
  | nil => rfl
  | cons search rest ih => cases search <;> simp [bounds, ih]

/-- What rows that were found look like. -/
theorem eq_of_ofEngine (h : ofEngine (Engine.ofAutomaton a) = .ok t) :
    t.rows.toList = (searches a).flatMap itemsOf ∧
      t.lexStates.toList = bounds 0 (searches a) ∧
      t.nextRows =
        a.states.mapIdx (nextRow? (searches a).toArray (bounds 0 (searches a)).toArray) := by
  cases haccepts : ((searches a).flatMap itemsOf).mapM (Engine.ofAutomaton a).acceptOf with
  | ok accepts =>
    rw [ofEngine_eq haccepts] at h
    cases h
    exact ⟨rfl, rfl, rfl⟩
  | error conflict =>
    have hfail : ofEngine (Engine.ofAutomaton a) = .error conflict := by
      rw [ofEngine_ofAutomaton, haccepts]
      rfl
    rw [hfail] at h
    cases h

/-- The rows of a search are the slice at its bound. -/
theorem exists_slice (h : ofEngine (Engine.ofAutomaton a) = .ok t) {info : LexStateInfo}
    (hinfo : a.lexStates[i]? = some info) {s : RowSearch}
    (hs : (Engine.ofAutomaton a).lexRows i = some s) :
    ∃ first, t.lexStates[i]? = some (some (first, s.rows.size)) ∧
      (bounds 0 (searches a))[i]? = some (some (first, s.rows.size)) ∧
      t.slice first s.rows.size = s.rows.items.toList := by
  obtain ⟨hrows, hlexStates, -⟩ := eq_of_ofEngine h
  obtain ⟨first, hbound, hget⟩ := exists_bound_of_lexRows hinfo hs
  refine ⟨first, ?_, hbound, ?_⟩
  · rw [← Array.getElem?_toList, hlexStates]
    exact hbound
  · unfold slice
    rw [hrows]
    refine List.ext_getElem? fun k => ?_
    rcases Nat.lt_or_ge k s.rows.size with hlt | hge
    · have hk : s.rows.items[k]? = some s.rows.items[k] := Array.getElem?_eq_getElem hlt
      rw [List.getElem?_take_of_lt hlt, List.getElem?_drop,
        show s.rows.items.toList[k]? = some s.rows.items[k] from Array.getElem?_toList.trans hk]
      exact hget k _ hk
    · rw [List.getElem?_take_eq_none hge, Array.getElem?_toList, Array.getElem?_eq_none hge]

/-- The rows of a lexical state that has a search. -/
theorem canonicalRange_of_search (h : a.Implements lexicon)
    (ht : ofEngine (Engine.ofAutomaton a) = .ok t) {info : LexStateInfo}
    (hinfo : a.lexStates[i]? = some info) {s : RowSearch}
    (hs : (Engine.ofAutomaton a).lexRows i = some s) :
    ∃ first count, t.lexStates[i]? = some (some (first, count)) ∧
      t.CanonicalRange a i (a.closure info.start) first count := by
  obtain ⟨first, hlexState, hbound, hslice⟩ := exists_slice ht hinfo hs
  obtain ⟨horderly, hlists⟩ := Engine.orderly_lexRows h hinfo hs
  -- The slice holds what the search of the lexical state has found, and that is in order.
  have hmembers : ∀ row ∈ s.rows.items.toList, ∀ q ∈ row, a.InLexState i q := by
    intro row hrow q hq
    obtain ⟨r, hr⟩ := List.getElem?_of_mem hrow
    rw [Array.getElem?_toList] at hr
    exact horderly.members hr hq
  refine ⟨first, s.rows.size, hlexState, ?_⟩
  have hcount := horderly.grown.length_le s.rows.nodup_items hmembers
  refine ⟨?_, ?_, ?_, ?_, ?_, ?_, hcount⟩
  all_goals rw [hslice]
  · rfl
  · exact horderly.grown.head?
  · exact s.rows.nodup_items
  · exact fun {k set} => horderly.grown.exists_before
  · exact hlists
  · intro row q target move hrow hq hmove
    obtain ⟨r, hr⟩ := List.getElem?_of_mem hrow
    rw [Array.getElem?_toList] at hr
    obtain ⟨id, hid, htarget⟩ := (Engine.closed_of_lexRows h hinfo hs).exists_next hr hq hmove
    obtain ⟨state, hstate, rfl⟩ := horderly.members hr hq
    obtain ⟨-, -, hnext⟩ := eq_of_ofEngine ht
    refine ⟨id, ?_, by rw [Array.getElem?_toList]; exact htarget⟩
    rw [hnext, Array.getElem?_mapIdx, hstate, Option.map_some, nextRow?_eq hinfo hs hbound, hid,
      Option.map_some]

/-- A lexical state whose start set has no move has no search, and so no rows. -/
theorem lexStates_eq_none (ht : ofEngine (Engine.ofAutomaton a) = .ok t) {info : LexStateInfo}
    (hinfo : a.lexStates[i]? = some info) (hnone : ∀ q ∈ a.closure info.start, a.move? q = none) :
    t.lexStates[i]? = some none := by
  obtain ⟨-, hlexStates, -⟩ := eq_of_ofEngine ht
  have hsearch := getElem?_searches hinfo
  have hno : (Engine.ofAutomaton a).lexRows i = none := by
    rw [Engine.lexRows_eq hinfo, if_neg]
    intro hany
    obtain ⟨q, hq, hmove⟩ := List.any_eq_true.1 hany
    rw [hnone q hq] at hmove
    cases hmove
  rw [hno] at hsearch
  rw [← Array.getElem?_toList, hlexStates]
  exact getElem?_bounds_none 0 _ hsearch

/-- No row is kept for a state without a move, or for one that is in no row: what is noted is noted
of a member of a row that has a move. -/
theorem nextRows_eq_none (h : a.Implements lexicon) (ht : ofEngine (Engine.ofAutomaton a) = .ok t)
    {q : Nat} {state : State} (hstate : a.states[q]? = some state)
    (hout : a.move? q = none ∨ ∀ row ∈ t.rows.toList, q ∉ row) :
    t.nextRows[q]? = some none := by
  obtain ⟨-, -, hnext⟩ := eq_of_ofEngine ht
  have hinfo := Array.getElem?_eq_getElem (h.lexState hstate)
  rw [hnext, Array.getElem?_mapIdx, hstate, Option.map_some]
  refine congrArg some ?_
  cases hs : (Engine.ofAutomaton a).lexRows state.lexState with
  | none => exact nextRow?_eq_none hinfo hs
  | some s =>
    obtain ⟨first, -, hbound, hslice⟩ := exists_slice ht hinfo hs
    obtain ⟨horderly, -⟩ := Engine.orderly_lexRows h hinfo hs
    rw [nextRow?_eq hinfo hs hbound]
    cases hid : s.next[q]? with
    | none => rfl
    | some id =>
      -- A row noted for the state would mean that it moves and that it is in a row.
      obtain ⟨move, target, hmove, -⟩ := horderly.target hid
      obtain ⟨row, hrow, hq⟩ := horderly.noted hid
      rcases hout with hout | hout
      · rw [hout] at hmove
        cases hmove
      · refine absurd hq (hout row ?_)
        rw [← hslice] at hrow
        exact List.mem_of_mem_drop (List.mem_of_mem_take hrow)

/-- The rows that are found are canonical. -/
theorem canonical_of_ofEngine (h : a.Implements lexicon)
    (ht : ofEngine (Engine.ofAutomaton a) = .ok t) : t.Canonical a := by
  obtain ⟨hrows, hlexStates, -⟩ := eq_of_ofEngine ht
  obtain ⟨t', ht', hserves⟩ := serves_ofEngine h
  rw [ht] at ht'
  cases ht'
  constructor
  case noRows =>
    intro i info hinfo hnone
    exact lexStates_eq_none ht hinfo hnone
  case range =>
    intro i info hinfo hsome
    cases hs : (Engine.ofAutomaton a).lexRows i with
    | none => exact absurd (Engine.move?_of_lexRows h hinfo hs) hsome
    | some s => exact canonicalRange_of_search h ht hinfo hs
  case rows_eq =>
    -- The slices of the lexical states, one after another, are all the rows.
    have hcut := flatMap_bounds [] (searches a)
    unfold slice
    rw [hlexStates, hrows]
    exact hcut.symm
  case accept =>
    intro r set hr
    obtain ⟨acc, hacc, haccept⟩ := hserves.accept hr
    obtain ⟨j, hj⟩ := hserves.inLexState hr
    obtain ⟨acc', hacc', hlowest⟩ := h.exists_acceptOf hj
    rw [hacc] at hacc'
    cases hacc'
    exact ⟨acc, haccept, hlowest⟩
  case next_none =>
    intro q state hstate hout
    exact nextRows_eq_none h ht hstate hout

end Rows

/-- The rows of a lexicon whose automaton is built without an error are canonical. They are the
rows of the tables: a lexical state starts with its first row, or with none. -/
theorem rows_canonical (h : Automaton.BuiltCleanly lexicon options) :
    ∃ t, Rows.ofEngine (Engine.ofAutomaton (Automaton.ofLexicon lexicon options).1) = .ok t ∧
      t.Canonical (Automaton.ofLexicon lexicon options).1 ∧
      ∀ (options' : Options) (log : Log) (k : Compilation), log.hasNoErrors = true →
        k = Compilation.ofAutomaton options' (Automaton.ofLexicon lexicon options).1 log →
          k.rows = t ∧ k.tables.lexStates.map (·.startRow) =
            t.lexStates.map fun bound => bound.map Prod.fst := by
  have himplements := Automaton.implements_ofLexicon h
  obtain ⟨t, ht, -⟩ := Rows.serves_ofEngine himplements
  refine ⟨t, ht, Rows.canonical_of_ofEngine himplements ht, ?_⟩
  intro options' log k hlog hk
  obtain ⟨rows, later, hrows, -, -, heq⟩ :=
    Compilation.exists_ofRows himplements hlog options'
  rw [ht] at hrows
  cases hrows
  rw [hk, heq]
  refine ⟨rfl, ?_⟩
  obtain ⟨-, hlexStates, -⟩ := Rows.eq_of_ofEngine ht
  have hsize : t.lexStates.size = (Automaton.ofLexicon lexicon options).1.lexStates.size := by
    rw [← Array.length_toList, hlexStates, Rows.length_bounds]
    simp [Rows.searches]
  refine Array.ext (by simp [Compilation.ofRows, hsize]) fun i hi hi' => ?_
  have hlt : i < t.lexStates.size := by simpa using hi'
  simp [Compilation.ofRows, hlt]

/-- The rows of the sample lexicon are canonical, and its tables have them. -/
theorem rows_canonical_words : Automaton.BuiltCleanly Lexicon.words Options.quiet ∧
    ∃ t, Rows.ofEngine (Engine.ofAutomaton
        (Automaton.ofLexicon Lexicon.words Options.quiet).1) = .ok t ∧
      t.Canonical (Automaton.ofLexicon Lexicon.words Options.quiet).1 ∧
      ∃ k, k = Compilation.ofAutomaton Options.quiet
          (Automaton.ofLexicon Lexicon.words Options.quiet).1 {} ∧
        k.rows = t ∧ k.tables.lexStates.map (·.startRow) =
          t.lexStates.map fun bound => bound.map Prod.fst := by
  have hbuilt : Automaton.BuiltCleanly Lexicon.words Options.quiet :=
    Automaton.builtCleanly_of_hasNoErrors rfl hasNoErrors_words
  obtain ⟨t, ht, hcanonical, htables⟩ := rows_canonical hbuilt
  exact ⟨hbuilt, t, ht, hcanonical, _, rfl, htables Options.quiet {} _ rfl rfl⟩

end Lexwright

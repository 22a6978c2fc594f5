import Lexwright.Automaton.Rows
import Lexwright.Proofs.Automaton.Subset
import Lexwright.Proofs.Interner

/-!
# `Lexwright.Proofs.Automaton.Rows`: the rows are closed under moves

The search goes through the rows in order and meets the row of every move of a member.

* `RowSearch.Sound`: every row that is noted for a state is the closure of the target of its move.
  `Sound.meet` keeps it.
* `RowSearch.Closed`: the same, and a row is noted for each member of a row that has a move.
  `closed_lexRows` proves it of a finished search.
* `Rows.Serves`, `Rows.serves_ofEngine`: what this comes to when the rows of all the lexical
  states are laid out one after another.
-/

set_option autoImplicit false

namespace Lexwright

variable {a : Automaton} {lexicon : Lexicon} {i p q r : Nat} {start set : StateSet}

/-- Jumps stay in their lexical state. -/
theorem Automaton.Implements.inLexState_of_mem_closure (h : a.Implements lexicon)
    (hp : a.InLexState i p) (hq : q ∈ a.closure p) : a.InLexState i q :=
  h.inLexState_of_path hp (mem_closure.1 hq).2

/-- So do steps of the engine. -/
theorem Automaton.Implements.inLexState_of_mem_step (h : a.Implements lexicon) {c : Char}
    (hset : ∀ p ∈ set, a.InLexState i p) (hq : q ∈ (Engine.ofAutomaton a).step set c) :
    a.InLexState i q := by
  obtain ⟨p, hp, target, ⟨move, hmove, _⟩, hq⟩ := (Engine.mem_step h.separate).1 hq
  exact h.inLexState_of_mem_closure (h.closed (hset p hp) (Or.inl ⟨move, hmove⟩)) hq

/-! ### The search of one lexical state -/

namespace RowSearch

variable {s s' s'' : RowSearch}

/-- The later search knows what the earlier one knows. -/
structure Extends (s s' : RowSearch) : Prop where
  rows : s.rows.Extends s'.rows
  next : ∀ {q id : Nat}, s.next[q]? = some id → s'.next[q]? = some id

/-- A search has found what it has found. -/
theorem Extends.refl (s : RowSearch) : s.Extends s := ⟨.refl _, fun h => h⟩

/-- What a later search adds to, an earlier one adds to. -/
theorem Extends.trans (h : s.Extends s') (h' : s'.Extends s'') : s.Extends s'' :=
  ⟨h.rows.trans h'.rows, fun hq => h'.next (h.next hq)⟩

/-- The first row is the start set, the rows are sets of states of the lexical state, and the row
noted for a state is the closure of the target of its move. -/
structure Sound (a : Automaton) (i : Nat) (start : StateSet) (s : RowSearch) : Prop where
  first : s.rows.get? 0 = some start
  members : ∀ {r q : Nat} {set : StateSet}, s.rows.get? r = some set → q ∈ set →
    a.InLexState i q
  target : ∀ {q id : Nat}, s.next[q]? = some id → ∃ set target, a.move? q = some (set, target) ∧
    s.rows.get? id = some (a.closure target)

/-- A row is noted for each member of the rows before this one that has a move. -/
def Passed (a : Automaton) (row : Nat) (s : RowSearch) : Prop :=
  ∀ {r q : Nat} {set : StateSet}, r < row → s.rows.get? r = some set → q ∈ set →
    (a.move? q).isSome → (s.next[q]?).isSome

/-- The search starts with the start set as its one row. -/
theorem sound_start (hstart : ∀ q ∈ start, a.InLexState i q) :
    Sound a i start { rows := (Interner.empty.intern start).1, next := ∅ } := by
  refine ⟨Interner.get?_intern_empty _, fun {r q set} hr hq => ?_, fun {q id} hq => ?_⟩
  · rcases Interner.eq_or_get?_of_intern hr with rfl | hr
    · exact hstart q hq
    · cases hr
  · rw [Std.HashMap.getElem?_empty] at hq
    cases hq

/-- The row of the target of a move is met. -/
theorem extends_meet (s : RowSearch) (q : Nat) : s.Extends ((Engine.ofAutomaton a).meet s q) := by
  unfold Engine.meet
  split
  · exact .refl s
  · split
    · exact .refl s
    · rename_i hnew
      refine ⟨Interner.extends_intern _ _, fun {p id} hp => ?_⟩
      rw [Std.HashMap.getElem?_insert]
      split
      · rename_i heq
        -- The row of this state was noted already, but the state is new.
        rw [eq_of_beq heq] at hnew
        rw [Std.HashMap.contains_eq_isSome_getElem?, hp] at hnew
        exact absurd rfl hnew
      · exact hp

/-- A state with a move has a next row once it was met. -/
theorem isSome_next_meet (s : RowSearch) (hq : (a.move? q).isSome) :
    (((Engine.ofAutomaton a).meet s q).next[q]?).isSome := by
  obtain ⟨⟨set, target⟩, hmove⟩ := Option.isSome_iff_exists.1 hq
  unfold Engine.meet
  rw [show (Engine.ofAutomaton a).automaton.move? q = some (set, target) from hmove]
  simp only
  split
  · rename_i hold
    rw [← Std.HashMap.contains_eq_isSome_getElem?]
    exact hold
  · simp only [Std.HashMap.getElem?_insert_self, Option.isSome_some]

/-- Meeting a state of the lexical state keeps the search sound. -/
theorem Sound.meet (h : a.Implements lexicon) (hs : s.Sound a i start) (hq : a.InLexState i q) :
    ((Engine.ofAutomaton a).meet s q).Sound a i start := by
  have hext := extends_meet (a := a) s q
  unfold Engine.meet at hext ⊢
  split
  · exact hs
  · rename_i set target hmove
    split
    · exact hs
    · rename_i hnew
      rw [hmove] at hext
      simp only [if_neg hnew] at hext
      rw [Engine.closure_ofAutomaton] at hext ⊢
      -- The one row that is added is a closure, and the entry that is added names this row.
      refine ⟨hext.rows _ _ hs.first, fun {r p set'} hr hp => ?_, fun {p id} hp => ?_⟩
      · rcases Interner.eq_or_get?_of_intern hr with rfl | hr
        · exact h.inLexState_of_mem_closure (h.closed hq (Or.inl ⟨set, hmove⟩)) hp
        · exact hs.members hr hp
      · rw [Std.HashMap.getElem?_insert] at hp
        split at hp
        · rename_i heq
          cases hp
          rw [← eq_of_beq heq]
          exact ⟨set, target, hmove, Interner.get?_intern _ _⟩
        · obtain ⟨set', target', hmove', hid⟩ := hs.target hp
          exact ⟨set', target', hmove', hext.rows _ _ hid⟩

/-- The members of a row are gone through. -/
theorem foldl_meet (h : a.Implements lexicon) (hs : s.Sound a i start) (members : List Nat)
    (hmembers : ∀ q ∈ members, a.InLexState i q) :
    (members.foldl (Engine.ofAutomaton a).meet s).Sound a i start ∧
      s.Extends (members.foldl (Engine.ofAutomaton a).meet s) ∧
      ∀ q ∈ members, (a.move? q).isSome →
        ((members.foldl (Engine.ofAutomaton a).meet s).next[q]?).isSome := by
  induction members generalizing s with
  | nil => exact ⟨hs, .refl s, fun q hq => absurd hq List.not_mem_nil⟩
  | cons p rest ih =>
    have hmet := hs.meet h (hmembers p List.mem_cons_self)
    obtain ⟨hsound, hext, hnoted⟩ := ih hmet fun q hq => hmembers q (List.mem_cons_of_mem _ hq)
    refine ⟨hsound, (extends_meet s p).trans hext, fun q hq hmove => ?_⟩
    rcases List.mem_cons.1 hq with rfl | hq
    · obtain ⟨id, hid⟩ := Option.isSome_iff_exists.1 (isSome_next_meet s hmove)
      rw [List.foldl_cons, hext.next hid]
      rfl
    · exact hnoted q hq hmove

/-- A finished search: a row is noted for each member of a row that has a move. -/
structure Closed (a : Automaton) (i : Nat) (start : StateSet) (s : RowSearch) : Prop
    extends s.Sound a i start where
  noted : ∀ {r q : Nat} {set : StateSet}, s.rows.get? r = some set → q ∈ set →
    (a.move? q).isSome → (s.next[q]?).isSome

/-- The row noted for a member of a row is the closure of the target of its move. -/
theorem Closed.exists_next (hs : s.Closed a i start) {move : Segments} {target : Nat}
    (hr : s.rows.get? r = some set) (hq : q ∈ set) (hmove : a.move? q = some (move, target)) :
    ∃ id, s.next[q]? = some id ∧ s.rows.get? id = some (a.closure target) := by
  obtain ⟨id, hid⟩ := Option.isSome_iff_exists.1 (hs.noted hr hq (by rw [hmove]; rfl))
  obtain ⟨move', target', hmove', htarget⟩ := hs.target hid
  rw [hmove] at hmove'
  cases hmove'
  exact ⟨id, hid, htarget⟩

/-- A search that has passed all its rows is closed. The induction is that of the search: each round
passes one more row. -/
theorem closed_rowsFrom (h : a.Implements lexicon) (row : Nat) (hs : s.Sound a i start)
    (hpassed : s.Passed a row) : ((Engine.ofAutomaton a).rowsFrom row s).Closed a i start := by
  fun_induction Engine.rowsFrom (Engine.ofAutomaton a) row s with
  | case1 row s hrow =>
    refine ⟨hs, fun {r q set} hr hq hmove => hpassed ?_ hr hq hmove⟩
    -- No row is left, so every row was passed.
    have hlt := (Array.getElem?_eq_some_iff.1 hr).1
    have hle := Array.getElem?_eq_none_iff.1 hrow
    omega
  | case2 row s set hrow hlt _ _ ih =>
    obtain ⟨hsound, hext, hnoted⟩ := foldl_meet h hs set.toList fun q hq => hs.members hrow hq
    refine ih hsound fun {r q set'} hr hset' hq hmove => ?_
    -- The rows up to this one were met before, and are the same sets still.
    have hold : s.rows.get? r = some set' := by
      have hlt' : r < s.rows.items.size := by
        show r < s.rows.size
        omega
      have hget : s.rows.get? r = some s.rows.items[r] := Array.getElem?_eq_getElem hlt'
      have := hext.rows _ _ hget
      rw [hset'] at this
      rw [hget, this]
    -- A row before this one was passed then; this one is passed by the fold.
    rcases Nat.lt_succ_iff_lt_or_eq.1 hr with hr | rfl
    · obtain ⟨id, hid⟩ := Option.isSome_iff_exists.1 (hpassed hr hold hq hmove)
      rw [hext.next hid]
      rfl
    · rw [hrow] at hold
      cases hold
      exact hnoted q hq hmove

end RowSearch

namespace Engine

variable {info : LexStateInfo} {s : RowSearch}

/-- The start set is the closure of the start state. -/
theorem startSet_ofAutomaton (hinfo : a.lexStates[i]? = some info) :
    (ofAutomaton a).startSet i = a.closure info.start := by
  unfold startSet
  rw [show (ofAutomaton a).automaton.lexStates[i]? = some info from hinfo]
  exact closure_ofAutomaton a info.start

/-- The search of a lexical state starts with the start set as its one row. -/
theorem lexRows_eq (hinfo : a.lexStates[i]? = some info) :
    (ofAutomaton a).lexRows i =
      if ((a.closure info.start).toList.any fun q => (a.move? q).isSome) = true then
        some ((ofAutomaton a).rowsFrom 0
          { rows := (Interner.empty.intern (a.closure info.start)).1, next := ∅ })
      else none := by
  unfold lexRows
  rw [startSet_ofAutomaton hinfo]
  rfl

/-- The search of a lexical state, if there is one, is finished; else its start set has no move. -/
theorem closed_lexRows (h : a.Implements lexicon) (hinfo : a.lexStates[i]? = some info) :
    match (ofAutomaton a).lexRows i with
    | some s => s.Closed a i (a.closure info.start)
    | none => ∀ q ∈ a.closure info.start, a.move? q = none := by
  rw [lexRows_eq hinfo]
  by_cases hany : ((a.closure info.start).toList.any fun q => (a.move? q).isSome) = true
  · rw [if_pos hany]
    -- No row was passed yet.
    refine RowSearch.closed_rowsFrom h 0 (RowSearch.sound_start fun q hq => ?_)
      fun {r q set} hr => absurd hr (Nat.not_lt_zero r)
    exact h.inLexState_of_mem_closure (h.start hinfo).1 hq
  · rw [if_neg hany]
    intro q hq
    refine Option.not_isSome_iff_eq_none.1 fun hsome => hany ?_
    exact List.any_eq_true.2 ⟨q, hq, hsome⟩

/-- The rows of a lexical state are closed under moves. -/
theorem closed_of_lexRows (h : a.Implements lexicon) (hinfo : a.lexStates[i]? = some info)
    (hs : (ofAutomaton a).lexRows i = some s) : s.Closed a i (a.closure info.start) := by
  have hclosed := closed_lexRows h hinfo
  rwa [hs] at hclosed

/-- A lexical state without rows has no move at its start. -/
theorem move?_of_lexRows (h : a.Implements lexicon) (hinfo : a.lexStates[i]? = some info)
    (hs : (ofAutomaton a).lexRows i = none) : ∀ q ∈ a.closure info.start, a.move? q = none := by
  have hnone := closed_lexRows h hinfo
  rwa [hs] at hnone

end Engine

/-! ### All the lexical states -/

namespace Rows

/-- The rows of one lexical state, if there are any. -/
def itemsOf (search : Option RowSearch) : List StateSet :=
  (search.map fun s => s.rows.items.toList).getD []

/-- The rows of a lexical state begin at its bound. The induction moves each lexical state to the
front once it is passed. -/
theorem exists_bound (front : List StateSet) (searches : List (Option RowSearch)) {s : RowSearch}
    (h : searches[i]? = some (some s)) :
    ∃ first, (bounds front.length searches)[i]? = some (some (first, s.rows.size)) ∧
      ∀ (k : Nat) (set : StateSet), s.rows.get? k = some set →
        (front ++ searches.flatMap itemsOf)[first + k]? = some set := by
  induction searches generalizing front i with
  | nil => cases h
  | cons search rest ih =>
    -- The rows of the first search go to the front of the others.
    have hmoved : front ++ (search :: rest).flatMap itemsOf =
        (front ++ itemsOf search) ++ rest.flatMap itemsOf := by
      rw [List.flatMap_cons, List.append_assoc]
    cases i with
    | zero =>
      obtain rfl : search = some s := Option.some.inj h
      refine ⟨front.length, rfl, fun k set hk => ?_⟩
      have hlt : k < s.rows.items.toList.length := (Array.getElem?_eq_some_iff.1 hk).1
      rw [hmoved, List.append_assoc, List.getElem?_append_right (Nat.le_add_right ..),
        Nat.add_sub_cancel_left]
      show (s.rows.items.toList ++ _)[k]? = some set
      rw [List.getElem?_append_left hlt, Array.getElem?_toList]
      exact hk
    | succ i =>
      obtain ⟨first, hbound, hrows⟩ := ih (front ++ itemsOf search) h
      refine ⟨first, ?_, fun k set hk => ?_⟩
      · rw [List.length_append] at hbound
        cases search with
        | none => exact hbound
        | some s' => exact hbound
      · rw [hmoved]
        exact hrows k set hk

/-- A lexical state without rows has no bounds. -/
theorem getElem?_bounds_none (first : Nat) (searches : List (Option RowSearch))
    (h : searches[i]? = some none) : (bounds first searches)[i]? = some none := by
  induction searches generalizing first i with
  | nil => cases h
  | cons search rest ih =>
    cases i with
    | zero =>
      obtain rfl : search = none := Option.some.inj h
      rfl
    | succ i =>
      cases search with
      | none => exact ih first h
      | some s => exact ih (first + s.rows.size) h

/-- A list is gone through without a failure if no element fails, and gives one result each. -/
theorem exists_mapM {α β ε : Type} {f : α → Except ε β} {as : List α}
    (h : ∀ a ∈ as, ∃ b, f a = .ok b) :
    ∃ bs, as.mapM f = .ok bs ∧ ∀ (r : Nat) (a : α), as[r]? = some a →
      ∃ b, f a = .ok b ∧ bs[r]? = some b := by
  induction as with
  | nil => exact ⟨[], rfl, fun r a ha => by cases ha⟩
  | cons a as ih =>
    obtain ⟨b, hb⟩ := h a List.mem_cons_self
    obtain ⟨bs, hbs, hget⟩ := ih fun x hx => h x (List.mem_cons_of_mem _ hx)
    refine ⟨b :: bs, ?_, fun r x hx => ?_⟩
    · rw [List.mapM_cons, hb, hbs]
      rfl
    · cases r with
      | zero =>
        obtain rfl : a = x := Option.some.inj hx
        exact ⟨b, hb, rfl⟩
      | succ r => exact hget r x hx

/-- What the rows of an automaton say of it. -/
structure Serves (t : Rows) (a : Automaton) : Prop where
  /-- A lexical state starts with the closure of its start state, unless this has no move. -/
  start : ∀ {i : Nat} {info : LexStateInfo}, a.lexStates[i]? = some info →
    match t.lexStates[i]?.join with
    | some bound => t.rows[bound.1]? = some (a.closure info.start)
    | none => ∀ q ∈ a.closure info.start, a.move? q = none
  nextSize : t.nextRows.size = a.states.size
  /-- A member of a row leads to the row of the target of its move. -/
  next : ∀ {r q target : Nat} {set : StateSet} {move : Segments}, t.rows[r]? = some set →
    q ∈ set → a.move? q = some (move, target) → ∃ next, t.nextRows[q]? = some (some next) ∧
      t.rows[next]? = some (a.closure target)
  /-- It leads to a row that there is. -/
  nextRow_lt : ∀ {q next : Nat}, t.nextRows[q]? = some (some next) → next < t.rows.size
  members : ∀ {r q : Nat} {set : StateSet}, t.rows[r]? = some set → q ∈ set → q < a.states.size
  /-- The members of a row belong to one lexical state. -/
  inLexState : ∀ {r : Nat} {set : StateSet}, t.rows[r]? = some set →
    ∃ i, ∀ q ∈ set, a.InLexState i q
  /-- The rule of a row is the one that the engine finds for it. -/
  accept : ∀ {r : Nat} {set : StateSet}, t.rows[r]? = some set →
    ∃ acc, (Engine.ofAutomaton a).acceptOf set = .ok acc ∧ t.accepts[r]? = some acc

/-- The searches of all the lexical states. -/
def searches (a : Automaton) : List (Option RowSearch) :=
  (List.range a.lexStates.size).map (Engine.ofAutomaton a).lexRows

/-- The searches are made for one lexical state after another. -/
theorem getElem?_searches {info : LexStateInfo} (hinfo : a.lexStates[i]? = some info) :
    (searches a)[i]? = some ((Engine.ofAutomaton a).lexRows i) := by
  unfold searches
  rw [List.getElem?_map, List.getElem?_range (Array.getElem?_eq_some_iff.1 hinfo).1]
  rfl

/-- Every row is met by the search of some lexical state. -/
theorem exists_search (hr : ((searches a).flatMap itemsOf)[r]? = some set) :
    ∃ i info s k, a.lexStates[i]? = some info ∧ (Engine.ofAutomaton a).lexRows i = some s ∧
      s.rows.get? k = some set := by
  obtain ⟨search, hsearch, hset⟩ := List.mem_flatMap.1 (List.mem_of_getElem? hr)
  obtain ⟨i, hi, rfl⟩ := List.mem_map.1 hsearch
  cases hs : (Engine.ofAutomaton a).lexRows i with
  | none =>
    rw [hs] at hset
    exact absurd hset List.not_mem_nil
  | some s =>
    rw [hs] at hset
    obtain ⟨k, hk⟩ := List.getElem?_of_mem (show set ∈ s.rows.items.toList from hset)
    rw [Array.getElem?_toList] at hk
    exact ⟨i, _, s, k, Array.getElem?_eq_getElem (List.mem_range.1 hi), hs, hk⟩

/-- The rows of an automaton are those of the searches. -/
theorem ofEngine_ofAutomaton : ofEngine (Engine.ofAutomaton a) =
    ((searches a).flatMap itemsOf).mapM (Engine.ofAutomaton a).acceptOf >>= fun accepts => .ok {
      rows := ((searches a).flatMap itemsOf).toArray
      accepts := accepts.toArray
      nextRows := a.states.mapIdx
        (nextRow? (searches a).toArray (bounds 0 (searches a)).toArray)
      lexStates := (bounds 0 (searches a)).toArray } := rfl

/-- If no set of a row has a clash, there are rows, and they are those of the searches. -/
theorem ofEngine_eq {accepts : List (Option Accept)}
    (h : ((searches a).flatMap itemsOf).mapM (Engine.ofAutomaton a).acceptOf = .ok accepts) :
    ofEngine (Engine.ofAutomaton a) = .ok {
      rows := ((searches a).flatMap itemsOf).toArray
      accepts := accepts.toArray
      nextRows := a.states.mapIdx
        (nextRow? (searches a).toArray (bounds 0 (searches a)).toArray)
      lexStates := (bounds 0 (searches a)).toArray } := by
  rw [ofEngine_ofAutomaton, h]
  rfl

/-- The rows of a search lie behind the bound of its lexical state. -/
theorem exists_bound_of_lexRows {info : LexStateInfo} {s : RowSearch}
    (hinfo : a.lexStates[i]? = some info) (hs : (Engine.ofAutomaton a).lexRows i = some s) :
    ∃ first, (bounds 0 (searches a))[i]? = some (some (first, s.rows.size)) ∧
      ∀ (k : Nat) (set : StateSet), s.rows.get? k = some set →
        ((searches a).flatMap itemsOf)[first + k]? = some set := by
  have hsearch := getElem?_searches hinfo
  rw [hs] at hsearch
  exact exists_bound [] (searches a) hsearch

/-- What is noted for a state is what the search of its lexical state has noted for it. -/
theorem nextRow?_eq {info : LexStateInfo} {s : RowSearch} {state : State} {first count : Nat}
    (hinfo : a.lexStates[state.lexState]? = some info)
    (hs : (Engine.ofAutomaton a).lexRows state.lexState = some s)
    (hbound : (bounds 0 (searches a))[state.lexState]? = some (some (first, count))) :
    nextRow? (searches a).toArray (bounds 0 (searches a)).toArray q state =
      (s.next[q]?).map (first + ·) := by
  unfold nextRow?
  rw [List.getElem?_toArray, List.getElem?_toArray, getElem?_searches hinfo, hs, hbound]

/-- Nothing is noted for a state of a lexical state without a search. -/
theorem nextRow?_eq_none {info : LexStateInfo} {state : State}
    (hinfo : a.lexStates[state.lexState]? = some info)
    (hs : (Engine.ofAutomaton a).lexRows state.lexState = none) :
    nextRow? (searches a).toArray (bounds 0 (searches a)).toArray q state = none := by
  unfold nextRow?
  rw [List.getElem?_toArray, getElem?_searches hinfo, hs]

/-- The members of a row are states of one lexical state. -/
theorem exists_inLexState (h : a.Implements lexicon)
    (hr : ((searches a).flatMap itemsOf)[r]? = some set) : ∃ i, ∀ q ∈ set, a.InLexState i q := by
  obtain ⟨i, info, s, k, hinfo, hs, hk⟩ := exists_search hr
  exact ⟨i, fun q hq => (Engine.closed_of_lexRows h hinfo hs).members hk hq⟩

/-- The rows of an automaton are found without a conflict. -/
theorem serves_ofEngine (h : a.Implements lexicon) :
    ∃ t, ofEngine (Engine.ofAutomaton a) = .ok t ∧ t.Serves a := by
  -- No set of any search has clashing rules, so all the rows have what they accept.
  obtain ⟨accepts, haccepts, hget⟩ := @exists_mapM _ _ _ (Engine.ofAutomaton a).acceptOf
    ((searches a).flatMap itemsOf) fun set hset => by
      obtain ⟨r, hr⟩ := List.getElem?_of_mem hset
      obtain ⟨i, hi⟩ := exists_inLexState h hr
      obtain ⟨acc, hacc, -⟩ := h.exists_acceptOf hi
      exact ⟨acc, hacc⟩
  refine ⟨_, ofEngine_eq haccepts, ?_⟩
  refine {
    start := fun {i info} hinfo => ?_
    nextSize := Array.size_mapIdx
    next := fun {r q target set move} hr hq hmove => ?_
    nextRow_lt := fun {q next} hnext => ?_
    members := fun {r q set} hr hq => ?_
    inLexState := fun {r set} hr => ?_
    accept := fun {r set} hr => ?_ }
  · simp only [List.getElem?_toArray]
    -- A lexical state without a search has a start state that does not move.
    cases hs : (Engine.ofAutomaton a).lexRows i with
    | none =>
      have hnone := getElem?_searches hinfo
      rw [hs] at hnone
      rw [getElem?_bounds_none 0 _ hnone]
      exact Engine.move?_of_lexRows h hinfo hs
    | some s =>
      obtain ⟨first, hfirst, hrows⟩ := exists_bound_of_lexRows hinfo hs
      rw [hfirst]
      exact hrows 0 _ (Engine.closed_of_lexRows h hinfo hs).first
  · -- The row noted for the member lies behind the bound of its lexical state.
    simp only [List.getElem?_toArray] at hr ⊢
    obtain ⟨i, info, s, k, hinfo, hs, hk⟩ := exists_search hr
    have hclosed := Engine.closed_of_lexRows h hinfo hs
    obtain ⟨state, hstate, rfl⟩ := hclosed.members hk hq
    obtain ⟨id, hid, htarget⟩ := hclosed.exists_next hk hq hmove
    obtain ⟨first, hfirst, hrows⟩ := exists_bound_of_lexRows hinfo hs
    refine ⟨first + id, ?_, hrows id _ htarget⟩
    rw [Array.getElem?_mapIdx, hstate, Option.map_some, nextRow?_eq hinfo hs hfirst, hid,
      Option.map_some]
  · -- What is noted for a state is a row of the search of its lexical state.
    obtain ⟨state, hstate, hrow⟩ := Option.map_eq_some_iff.1
      (Array.getElem?_mapIdx.symm.trans hnext)
    have hinfo := Array.getElem?_eq_getElem (h.lexState hstate)
    cases hs : (Engine.ofAutomaton a).lexRows state.lexState with
    | none =>
      rw [nextRow?_eq_none hinfo hs] at hrow
      cases hrow
    | some s =>
      obtain ⟨first, hfirst, hrows⟩ := exists_bound_of_lexRows hinfo hs
      rw [nextRow?_eq hinfo hs hfirst] at hrow
      obtain ⟨id, hid, rfl⟩ := Option.map_eq_some_iff.1 hrow
      obtain ⟨_, _, -, htarget⟩ := (Engine.closed_of_lexRows h hinfo hs).target hid
      rw [List.size_toArray]
      exact (List.getElem?_eq_some_iff.1 (hrows id _ htarget)).1
  · simp only [List.getElem?_toArray] at hr
    obtain ⟨i, hi⟩ := exists_inLexState h hr
    obtain ⟨s, hs, -⟩ := hi q hq
    exact (Array.getElem?_eq_some_iff.1 hs).1
  · simp only [List.getElem?_toArray] at hr
    exact exists_inLexState h hr
  · simp only [List.getElem?_toArray] at hr ⊢
    exact hget r set hr

end Rows

end Lexwright

import Lexwright.Automaton.Basic
import Lexwright.SortedSet
import Std.Data.HashSet

/-!
# `Lexwright.Automaton.Closure`: the automaton as a machine on sets of states

The states that jumps reach from a state are its closure. A set of states reads a character by
the union of the closures of the targets of its moves. Only important states are kept.

* `Automaton.visit`: the states that jumps reach, by a list of states still to be visited.
* `Engine`: an automaton with the closures of its states, each computed when it is first asked
  for.
* `Engine.step`, `Engine.acceptOf`, `Engine.longestMatch`: reading a character, the rule that a
  set accepts, and the longest prefix of a text that is accepted.
* `Engine.partition`: the sets of characters that a set of states tells apart.
-/

set_option autoImplicit false

namespace Lexwright

namespace Automaton

/-- Number of states that were not seen. -/
def unseen (a : Automaton) (seen : Std.HashSet Nat) : Nat :=
  (List.range a.states.size).countP fun q => !seen.contains q

/-- A state that is seen now and was not seen before leaves fewer states unseen. -/
theorem unseen_insert_lt {a : Automaton} {seen : Std.HashSet Nat} {q : Nat}
    (hq : q < a.states.size) (hSeen : ¬seen.contains q = true) :
    a.unseen (seen.insert q) < a.unseen seen := by
  refine countP_lt_countP (a := q) (fun x _ h => ?_) (List.mem_range.2 hq) (by simpa using hSeen)
    (by simp)
  simp only [Std.HashSet.contains_insert, Bool.not_or, Bool.and_eq_true] at h
  exact h.2

/-- The states seen so far and those that jumps reach from the pending ones. -/
def visit (a : Automaton) (pending : List Nat) (seen : Std.HashSet Nat) : Std.HashSet Nat :=
  match pending with
  | [] => seen
  | q :: rest =>
    if hq : q < a.states.size then
      -- jumps can lead in circles, so a state that was seen is passed over
      if hSeen : seen.contains q = true then a.visit rest seen
      else
        have := unseen_insert_lt hq hSeen
        a.visit (a.states[q].jumps.toList ++ rest) (seen.insert q)
    else a.visit rest seen
termination_by (a.unseen seen, pending.length)

/-- The states that jumps reach from a state, the state itself included. -/
def reach (a : Automaton) (q : Nat) : StateSet :=
  SortedSet.ofList (a.visit [q] ∅).toList

/-- The important states that jumps reach from a state. -/
def closure (a : Automaton) (q : Nat) : StateSet :=
  SortedSet.ofList ((a.reach q).toList.filter fun p =>
    (a.states[p]?.map State.isImportant).getD false)

/-- The move of a state. -/
def move? (a : Automaton) (q : Nat) : Option (Segments × Nat) := a.states[q]? >>= State.move

/-- The rule that a state accepts. -/
def accept? (a : Automaton) (q : Nat) : Option Accept := a.states[q]? >>= State.accept

end Automaton

/-- An automaton whose closures are computed at most once. -/
structure Engine where
  automaton : Automaton
  closures : Array (Thunk StateSet)

/-- Two rules of one ordinal that a set of states accepts. -/
structure Conflict where
  first : Nat
  second : Nat
  set : StateSet
  ordinal : Nat
deriving DecidableEq

/-- The wording of a conflict. -/
def Conflict.text (c : Conflict) : String :=
  s!"rules {c.first} and {c.second} accepted in {c.set.display} " ++
    s!"have the same ordinal {c.ordinal}"

namespace Engine

/-- The engine of an automaton. -/
def ofAutomaton (a : Automaton) : Engine where
  automaton := a
  closures := (Array.range a.states.size).map fun q => Thunk.mk fun _ => a.closure q

/-- The important states that jumps reach from a state. -/
def closure (e : Engine) (q : Nat) : StateSet :=
  match e.closures[q]? with
  | some set => set.get
  | none => e.automaton.closure q

/-- An engine that has computed no closure yet computes the closures of the automaton. -/
theorem closure_ofAutomaton (a : Automaton) (q : Nat) : (ofAutomaton a).closure q = a.closure q := by
  unfold closure
  split
  · rename_i set h
    simp only [ofAutomaton, Array.getElem?_map, Option.map_eq_some_iff] at h
    obtain ⟨p, hp, rfl⟩ := h
    rw [Array.getElem?_eq_some_iff] at hp
    obtain ⟨_, rfl⟩ := hp
    simp [Thunk.get]
  · rfl

/-- The states before the first character in a lexical state. -/
def startSet (e : Engine) (lexState : Nat) : StateSet :=
  match e.automaton.lexStates[lexState]? with
  | some info => e.closure info.start
  | none => .empty

/-- The states after one more character. -/
def step (e : Engine) (active : StateSet) (c : Char) : StateSet :=
  active.toList.foldl
    (fun next q =>
      match e.automaton.move? q with
      | some (set, target) => if set.contains c.toNat then next.union (e.closure target) else next
      | none => next)
    .empty

/-- Chooses between the rule chosen so far and the rule of one more member of the set. -/
def better (set : StateSet) (best : Option Accept) (found : Accept) :
    Except Conflict (Option Accept) :=
  match best with
  | none => .ok (some found)
  | some b =>
    -- only the rule chosen so far can conflict; one that it replaced is not looked at again
    if found.ordinal < b.ordinal then .ok (some found)
    else if found.ordinal = b.ordinal ∧ (found.rule ≠ b.rule ∨ found.kind ≠ b.kind) then
      .error ⟨b.rule, found.rule, set, found.ordinal⟩
    else .ok (some b)

/-- The rule of the lowest ordinal that a member of the set accepts. -/
def acceptOf (e : Engine) (set : StateSet) : Except Conflict (Option Accept) :=
  (set.toList.filterMap e.automaton.accept?).foldlM (better set) none

/-- The sets of the moves of the members, cut along each other's bounds. -/
def partition (e : Engine) (set : StateSet) : Segments :=
  (set.toList.filterMap e.automaton.move?).foldl (fun parts m => (parts.refine m.1).1) .empty

/-- Reads a text from a set of states, after `count` characters, and keeps the last rule that was
accepted with the number of characters before it. -/
def matchFrom (e : Engine) (active : StateSet) (best : Option (Accept × Nat)) (count : Nat) :
    List Char → Except Conflict (Option (Accept × Nat))
  | [] => .ok best
  | c :: rest =>
    let next := e.step active c
    if next.isEmpty then .ok best
    else do
      let best := match ← e.acceptOf next with
        | some accept => some (accept, count + 1)
        | none => best
      e.matchFrom next best (count + 1) rest

/-- The longest prefix of a text that a lexical state accepts, with its rule. The empty text is
never accepted. -/
def longestMatch (e : Engine) (lexState : Nat) (text : String) :
    Except Conflict (Option (Accept × Nat)) :=
  e.matchFrom (e.startSet lexState) none 0 text.toList

end Engine

end Lexwright

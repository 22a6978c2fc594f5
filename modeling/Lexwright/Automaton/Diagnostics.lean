import Lexwright.Automaton.Closure
import Lexwright.Interner
import Lexwright.Issue

/-!
# `Lexwright.Automaton.Diagnostics`: rules that do not do what they seem to do

* `Engine.emptyMatches`: rules that match the empty text, which is never a token.
* `Engine.explore`: the sets of states that texts lead to, and the rules selected on the way.
* `Engine.unmatched`: rules that are never selected.
-/

set_option autoImplicit false

namespace Lexwright

namespace Engine

/-- A warning for each rule whose fragment can be left without a character. -/
def emptyMatches (e : Engine) : List Message :=
  e.automaton.rules.toList.filterMap fun r =>
    match r.fragment with
    | some (entry, exit) =>
      if exit ∈ e.automaton.reach entry then some ((Issue.matchesEmpty r.name).message r.pos)
      else none
    | none => none

/-- What an exploration met: the sets of states, and the rules that they select. -/
structure Exploration where
  sets : Interner StateSet
  selected : Std.HashSet Nat
  /-- Whether the exploration met every set. -/
  complete : Bool

/-- Reads one character of each part of the alphabet. Stops when more than `limit` sets are
met. -/
def exploreParts (e : Engine) (limit : Nat) (set : StateSet) (x : Exploration) :
    List Seg → Except Conflict Exploration
  | [] => .ok x
  | part :: rest =>
    match Text.charOfCode? part.first with
    | none => e.exploreParts limit set x rest
    | some c =>
      let next := e.step set c
      if next.isEmpty then e.exploreParts limit set x rest
      else do
        let selected := match ← e.acceptOf next with
          | some accept => x.selected.insert accept.rule
          | none => x.selected
        let (sets, _, isNew) := x.sets.intern next
        -- the set that breaks the limit is met, but not explored
        if isNew && decide (limit < sets.size) then
          return { sets, selected, complete := false }
        else e.exploreParts limit set { x with sets, selected } rest

/-- Explores from the sets with numbers from `index` on. There are at most `limit` of them. -/
def exploreFrom (e : Engine) (limit index : Nat) (x : Exploration) :
    Except Conflict Exploration :=
  if index < limit then
    match x.sets.get? index with
    | none => .ok x
    | some set => do
      let x ← e.exploreParts limit set x (e.partition set).toList
      if x.complete then e.exploreFrom limit (index + 1) x else .ok x
  else .ok x
termination_by limit - index

/-- Explores a lexical state. -/
def explore (e : Engine) (limit lexState : Nat) : Except Conflict Exploration :=
  e.exploreFrom limit 0
    { sets := (Interner.empty.intern (e.startSet lexState)).1, selected := ∅, complete := true }

/-- The warnings of one lexical state: the exploration stopped, or a rule was never selected. -/
def unmatchedIn (e : Engine) (limit : Nat) (info : LexStateInfo) (x : Exploration) :
    List Message :=
  if x.complete then
    (List.range' info.firstRule (info.endRule - info.firstRule)).filterMap fun id =>
      match e.automaton.rules[id]? with
      | some r =>
        if r.fragment.isSome && !x.selected.contains id then
          some ((Issue.neverMatched r.name).message r.pos)
        else none
      | none => none
  else [(Issue.searchStopped info.name limit).message none]

/-- Adds the warnings of the lexical states from number `lexState` on. -/
def unmatchedFrom (e : Engine) (limit lexState : Nat) (log : Log) :
    List LexStateInfo → Log × Option Conflict
  | [] => (log, none)
  | info :: rest =>
    match e.explore limit lexState with
    | .error conflict => (log, some conflict)
    | .ok x => e.unmatchedFrom limit (lexState + 1) (log.pushAll (e.unmatchedIn limit info x)) rest

/-- Adds a warning for each rule that is never selected, because rules of lower ordinals match
the same texts. Nothing is explored if the limit is 0. -/
def unmatched (e : Engine) (limit : Nat) (log : Log) : Log × Option Conflict :=
  if limit = 0 then (log, none)
  else e.unmatchedFrom limit 0 log e.automaton.lexStates.toList

end Engine

end Lexwright

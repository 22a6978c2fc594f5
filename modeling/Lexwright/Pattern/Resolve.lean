import Lexwright.Lexicon.Labels
import Lexwright.SortedSet
import Lexwright.Regex.Basic
import Lexwright.Segments.Basic

/-!
# `Lexwright.Pattern.Resolve`: the pattern of an expression

A reference is replaced by the labelled expression, again for each reference. The labels that are
being expanded are kept open: a reference to an open label would never end. What cannot be
resolved is reported and stands for the empty text.

* `Scope`: what an expression is resolved against.
* `Regex.resolve`: the pattern, and what was found wrong, in order.
-/

set_option autoImplicit false

namespace Lexwright

/-- What the expression of a rule is resolved against: the labels, the largest bound of a
repetition, and whether letter case is ignored in the rule. -/
structure Scope where
  labels : Labels
  limit : Nat
  ignoreCase : Bool

/-- An issue of one node. -/
structure Finding where
  site : Site
  pos : Option Pos
  issue : Issue
deriving DecidableEq, Repr

namespace Scope

/-- The characters that stand for one character of a literal. -/
def charSet (k : Scope) (c : Char) : Segments :=
  if k.ignoreCase then (Segments.ofChar c).withCaseVariants else Segments.ofChar c

/-- The characters of a list of ranges. Letter case is resolved before the list is negated. -/
def classSet (k : Scope) (negated : Bool) (ranges : List (Char × Char)) : Segments :=
  let listed := Segments.normalize
    (ranges.foldl (fun s r => s.insertScalars r.1.toNat r.2.toNat) .empty)
  let cased := if k.ignoreCase then listed.withCaseVariants else listed
  if negated then cased.complement else cased

end Scope

/-- The ranges of a character list that end before they start. -/
def invalidRanges (ranges : List (Char × Char)) : List Issue :=
  (ranges.filter fun r => r.2.toNat < r.1.toNat).map fun r => .invalidRange r.1 r.2

/-- What is wrong with the bounds of a repetition. -/
def Count.issue? (limit : Nat) : Count → Option Issue
  | range least none => if limit < least then some (.excessiveRepetition least limit) else none
  | range least (some most) =>
    if most < least then some (.invalidRepetition least most)
    else if limit < most then some (.excessiveRepetition most limit)
    else none
  | _ => none

/-- Whether the repetition holds no copy of the repeated expression. -/
def Count.isNever : Count → Bool
  | range _ (some 0) => true
  | _ => false

/-- Number of labels that are not open. -/
def unopened (labels : Labels) (opened : List String) : Nat :=
  labels.keys.countP fun name => !opened.contains name

/-- Opening a label never leaves more labels unopened. -/
theorem unopened_cons_le (labels : Labels) (name : String) (opened : List String) :
    unopened labels (name :: opened) ≤ unopened labels opened := by
  refine List.countP_mono_left fun x _ h => ?_
  simp only [List.contains_cons, Bool.not_or, Bool.and_eq_true] at h
  exact h.2

/-- Opening a label that exists and is not open leaves fewer labels unopened. This is why the
expansion of references ends. -/
theorem unopened_cons_lt {labels : Labels} {name : String} {opened : List String}
    {target : Labelled} (hOpen : opened.contains name = false)
    (hTarget : labels[name]? = some target) :
    unopened labels (name :: opened) < unopened labels opened := by
  refine countP_lt_countP (a := name) (fun x _ h => ?_) ?_ (by rw [hOpen]; rfl) (by simp)
  · simp only [List.contains_cons, Bool.not_or, Bool.and_eq_true] at h
    exact h.2
  · rw [Std.HashMap.mem_keys, Std.HashMap.mem_iff_isSome_getElem?, hTarget]
    rfl

/-- The open labels inside a node: its own label is open too. -/
def Tag.open (t : Tag) (opened : List String) : List String :=
  match t.label with
  | some label => label :: opened
  | none => opened

/-- A node opens its own label, if it has one, and nothing else. -/
theorem unopened_open_le (labels : Labels) (t : Tag) (opened : List String) :
    unopened labels (t.open opened) ≤ unopened labels opened := by
  unfold Tag.open
  split
  · exact unopened_cons_le ..
  · exact Nat.le_refl _

namespace Regex

mutual

/-- The pattern of a node, and what is wrong with the node and what it stands for. -/
def resolve (k : Scope) (opened : List String) (site : Site) : Regex → Pattern × List Finding
  | chars tag negated ranges =>
    let set := k.classSet negated ranges
    let empty :=
      if set.isEmpty then [Issue.emptyClass (chars tag negated ranges).display] else []
    (.chars set, (invalidRanges ranges ++ empty).map (⟨site, tag.pos, ·⟩))
  | literal _ text => (.literal (text.toList.map k.charSet), [])
  | choice tag rs =>
    let (ps, found) := resolveAll k (tag.open opened) site 0 rs
    (.choice ps, found)
  | seq tag rs =>
    let (ps, found) := resolveAll k (tag.open opened) site 0 rs
    (.seq ps, found)
  | repeated tag count inner =>
    match count.issue? k.limit with
    | some issue => (.empty, [⟨site, tag.pos, issue⟩])
    | none =>
      -- no copy is made, so what is inside is not looked at
      if count.isNever then (.repeated count .empty, [])
      else
        let (p, found) := resolve k (tag.open opened) (site.child 0) inner
        (.repeated count p, found)
  | eof tag => (.empty, [⟨site, tag.pos, .misplacedEof⟩])
  | ref tag name =>
    if hOpen : (tag.open opened).contains name = true then
      (.empty, [⟨site, tag.pos, .recursiveReference name⟩])
    else
      match hTarget : k.labels[name]? with
      | some target =>
        -- one label more is open, so this ends even though the target may be larger
        have := unopened_cons_lt (Bool.eq_false_iff.2 hOpen) hTarget
        resolve k (name :: tag.open opened) target.site target.node
      | none => (.empty, [⟨site, tag.pos, .undefinedReference name⟩])
termination_by r => (unopened k.labels opened, sizeOf r)
decreasing_by
  · exact Prod.Lex.right' _ (unopened_open_le ..) (by simp only [Regex.choice.sizeOf_spec]; omega)
  · exact Prod.Lex.right' _ (unopened_open_le ..) (by simp only [Regex.seq.sizeOf_spec]; omega)
  · exact Prod.Lex.right' _ (unopened_open_le ..) (by simp only [Regex.repeated.sizeOf_spec]; omega)
  · exact Prod.Lex.left _ _ (Nat.lt_of_lt_of_le this (unopened_open_le ..))

/-- The patterns of the children of a node from the `i`-th on. -/
def resolveAll (k : Scope) (opened : List String) (site : Site) (i : Nat) :
    List Regex → List Pattern × List Finding
  | [] => ([], [])
  | r :: rest =>
    let (p, found) := resolve k opened (site.child i) r
    let (ps, later) := resolveAll k opened site (i + 1) rest
    (p :: ps, found ++ later)
termination_by rs => (unopened k.labels opened, sizeOf rs)

end

end Regex

end Lexwright

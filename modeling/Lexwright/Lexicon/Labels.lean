import Lexwright.Issue
import Lexwright.Lexicon
import Std.Data.HashMap

/-!
# `Lexwright.Lexicon.Labels`: the labelled expressions of a lexicon

A label may be referenced from any rule of any lexical state. Of several nodes with one label the
first in the order of `Lexicon.nodes` counts, and each later one is reported.
-/

set_option autoImplicit false

namespace Lexwright

/-- The address of a node: its lexical state, its rule, and its path in the expression. -/
structure Site where
  state : Nat
  rule : Nat
  path : List Nat
deriving DecidableEq, Repr, Hashable

/-- The address of a child of the node. -/
def Site.child (s : Site) (i : Nat) : Site := { s with path := i :: s.path }

/-- A node of a lexicon with its address. -/
structure Labelled where
  site : Site
  node : Regex

/-- The node that each label stands for. -/
abbrev Labels := Std.HashMap String Labelled

namespace Lexicon

/-- The nodes of all the rules, in the order of the lexical states and their rules, parents before
children. -/
def nodes (lexicon : Lexicon) : List Labelled :=
  lexicon.states.zipIdx.flatMap fun s =>
    s.1.rules.zipIdx.flatMap fun r =>
      r.1.regex.nodes.map fun n => ⟨⟨s.2, r.2, n.path⟩, n.node⟩

/-- Adds a node to the labels. The second part reports a label that is taken. -/
def addLabel (found : Labels × List (Option Pos × Issue)) (n : Labelled) :
    Labels × List (Option Pos × Issue) :=
  match n.node.tag.label with
  | none => found
  | some label =>
    if found.1.contains label then
      (found.1, found.2 ++ [(n.node.tag.pos, .duplicateLabel label)])
    else (found.1.insert label n, found.2)

/-- The labels, and what is wrong with them. -/
def labels (lexicon : Lexicon) : Labels × List (Option Pos × Issue) :=
  lexicon.nodes.foldl addLabel (∅, [])

/-- Adds the name of a lexical state to the numbers of the names. The second part reports a name
that is taken. -/
def addName (found : Std.HashMap String Nat × List (Option Pos × Issue)) (s : LexState × Nat) :
    Std.HashMap String Nat × List (Option Pos × Issue) :=
  if found.1.contains s.1.name then
    (found.1, found.2 ++ [(s.1.pos, .duplicateState s.1.name)])
  else (found.1.insert s.1.name s.2, found.2)

/-- The number of each name of a lexical state, and what is wrong with the names. -/
def stateNames (lexicon : Lexicon) : Std.HashMap String Nat × List (Option Pos × Issue) :=
  lexicon.states.zipIdx.foldl addName (∅, [])

end Lexicon

end Lexwright

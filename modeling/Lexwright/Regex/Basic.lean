import Lexwright.Position
import Lexwright.Segments.Basic

/-!
# `Lexwright.Regex.Basic`: the expressions of token rules

* `Regex`: character lists, literals, choices, sequences, repetitions, the end of the input, and
  references to labelled expressions. Every node carries a `Tag`.
* `Regex.children`: the direct parts of a node.
* `Regex.walk`: a node and all its descendants, parents first, by an explicit list of nodes that
  are still to be visited.
* `Regex.preorder`: the same nodes by recursion on the tree.
* `Pattern`: what an expression means inside one rule. References are replaced by what they stand
  for, and every character by the set of characters that it matches there.
-/

set_option autoImplicit false

namespace Lexwright

/-- What a node carries beside its expression: the label under which it may be referenced, whether
it exists only for that, and its position in the source. -/
structure Tag where
  label : Option String := none
  hidden : Bool := false
  pos : Option Pos := none
deriving DecidableEq, Repr, Inhabited

/-- How often a repeated expression occurs. -/
inductive Count where
  | oneOrMore
  | zeroOrMore
  | zeroOrOne
  /-- At least `least` times, and at most `most` times if there is a bound. -/
  | range (least : Nat) (most : Option Nat)
deriving DecidableEq, Repr, Inhabited

/-- A regular expression. -/
inductive Regex where
  /-- One character inside, or outside, the given ranges. -/
  | chars (tag : Tag) (negated : Bool) (ranges : List (Char × Char))
  /-- The characters of a text, one after another. -/
  | literal (tag : Tag) (text : String)
  /-- Any one of the alternatives. -/
  | choice (tag : Tag) (alternatives : List Regex)
  /-- All the items, one after another. -/
  | seq (tag : Tag) (items : List Regex)
  /-- A repeated expression. -/
  | repeated (tag : Tag) (count : Count) (inner : Regex)
  /-- The end of the input. -/
  | eof (tag : Tag)
  /-- The expression that carries the label. -/
  | ref (tag : Tag) (name : String)
deriving Inhabited

namespace Regex

/-- What the node carries beside its expression. -/
def tag : Regex → Tag
  | chars t _ _ | literal t _ | choice t _ | seq t _ | repeated t _ _ | eof t | ref t _ => t

/-- Whether the whole expression is the end of the input. -/
def isEof : Regex → Bool
  | eof _ => true
  | _ => false

/-- The direct parts of a node. -/
def children : Regex → List Regex
  | choice _ rs | seq _ rs => rs
  | repeated _ _ r => [r]
  | _ => []

mutual

/-- The node and its descendants, parents before children, children from left to right. -/
def preorder : Regex → List Regex
  | choice t rs => choice t rs :: preorderAll rs
  | seq t rs => seq t rs :: preorderAll rs
  | repeated t n r => repeated t n r :: preorder r
  | chars t b rs => [chars t b rs]
  | literal t s => [literal t s]
  | eof t => [eof t]
  | ref t s => [ref t s]

/-- The nodes of several trees, one tree after another. -/
def preorderAll : List Regex → List Regex
  | [] => []
  | r :: rs => preorder r ++ preorderAll rs

end

mutual

/-- Number of nodes. -/
def size : Regex → Nat
  | choice _ rs | seq _ rs => sizeAll rs + 1
  | repeated _ _ r => size r + 1
  | _ => 1

/-- Number of nodes of several trees. -/
def sizeAll : List Regex → Nat
  | [] => 0
  | r :: rs => size r + sizeAll rs

end

/-- Sizes of lists are added. -/
theorem sizeAll_append (rs ss : List Regex) : sizeAll (rs ++ ss) = sizeAll rs + sizeAll ss := by
  induction rs with
  | nil => simp [sizeAll]
  | cons r rs ih => simp [sizeAll, ih, Nat.add_assoc]

/-- A node counts one more than its children. -/
theorem size_eq (r : Regex) : r.size = sizeAll r.children + 1 := by
  cases r <;> simp [size, children, sizeAll]

/-- A node of an expression with its address: the indices of the children that lead to it, the
last one first. -/
structure Located where
  path : List Nat
  node : Regex

/-- The children of a node with their addresses. -/
def Located.children (n : Located) : List Located :=
  n.node.children.zipIdx.map fun c => ⟨c.2 :: n.path, c.1⟩

/-- The children with their addresses are the children. -/
theorem Located.map_node_children (n : Located) : n.children.map (·.node) = n.node.children := by
  simp only [Located.children, List.map_map]
  have h : ((fun x : Located => x.node) ∘ fun c : Regex × Nat => (⟨c.2 :: n.path, c.1⟩ : Located))
      = Prod.fst := rfl
  rw [h, List.zipIdx_map_fst]

/-- Visits the pending nodes and their descendants: the first pending node is next, and its
children take its place. -/
def walk : List Located → List Located
  | [] => []
  | n :: pending => n :: walk (n.children ++ pending)
termination_by pending => sizeAll (pending.map (·.node))
decreasing_by
  rw [List.map_append, sizeAll_append, Located.map_node_children, List.map_cons, sizeAll, size_eq]
  omega

/-- The node and its descendants with their addresses, parents first. -/
def nodes (r : Regex) : List Located := walk [⟨[], r⟩]

end Regex

/-- An expression whose characters are sets and which refers to no other. -/
inductive Pattern where
  /-- One character of the set. -/
  | chars (set : Segments)
  /-- One character of each set, in order. -/
  | literal (sets : List Segments)
  /-- Any one of the alternatives. -/
  | choice (alternatives : List Pattern)
  /-- All the items, one after another. -/
  | seq (items : List Pattern)
  /-- A repeated pattern. -/
  | repeated (count : Count) (inner : Pattern)
deriving Inhabited

/-- The pattern of the empty text. -/
def Pattern.empty : Pattern := .seq []

end Lexwright

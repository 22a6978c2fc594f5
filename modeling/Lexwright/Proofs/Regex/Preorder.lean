import Lexwright.Proofs.Lexicon.Labels

/-!
# `Lexwright.Proofs.Regex.Preorder`: a walk with a stack goes through a tree in preorder

`Regex.nodes` lists all the nodes of an expression. A `Visitor` gives them one at a time: it keeps
the nodes that are still to be visited on a stack, takes the last one from it, and puts the children
of that node there in reverse, so that the first child is on top.

* `Visitor.itemAt_eq`: whatever is on the stack, the visitor gives what `walk` lists, and then
  nothing any more. The stack from its top down is what `walk` goes by.
* `Regex.mem_walk_singleton_iff`: below a node the walk finds what `Regex.at?` finds, and nothing
  else.
* `Regex.increasing_walk_singleton`: the addresses of the nodes increase.
* `Regex.inPreorder_nodes`: so the walk is the traversal by recursion, and goes through each node
  once.
-/

set_option autoImplicit false

namespace Lexwright.Regex

/-! ### Addresses -/

/-- The node that is reached by going down, from each node to the child with the next index. -/
def at? (r : Regex) : List Nat → Option Regex
  | [] => some r
  | i :: steps => r.children[i]?.bind fun child => child.at? steps

/-- The nodes of an expression in preorder: those that the recursion on the tree lists, and each
address once. The addresses increase lexicographically: a node is before all that is below it, and
all below a child is before the next child. -/
structure InPreorder (r : Regex) (visited : List Located) : Prop where
  map_node : visited.map (·.node) = r.preorder
  mem_iff : ∀ n, n ∈ visited ↔ r.at? n.path.reverse = some n.node
  increasing : visited.Pairwise fun m n => m.path.reverse < n.path.reverse

namespace Located

variable {n c : Located}

/-- A child has the address of its place under the address of its parent. -/
theorem mem_children_iff :
    c ∈ n.children ↔ ∃ i, n.node.children[i]? = some c.node ∧ c.path = i :: n.path := by
  rw [children, List.mem_map]
  constructor
  · rintro ⟨⟨child, i⟩, hchild, rfl⟩
    exact ⟨i, List.mem_zipIdx_iff_getElem?.1 hchild, rfl⟩
  · rintro ⟨i, hchild, hpath⟩
    refine ⟨(c.node, i), List.mem_zipIdx_iff_getElem?.2 hchild, ?_⟩
    rw [← hpath]

/-- The children have increasing indices. -/
theorem pairwise_children (n : Located) :
    n.children.Pairwise fun c d => ∃ i j, i < j ∧ c.path = i :: n.path ∧ d.path = j :: n.path := by
  have hindices : (n.node.children.zipIdx.map Prod.snd).Pairwise (· < ·) := by
    rw [List.zipIdx_map_snd]
    exact List.pairwise_lt_range'
  rw [children, List.pairwise_map]
  exact (List.pairwise_map.1 hindices).imp fun hlt => ⟨_, _, hlt, rfl, rfl⟩

/-- A child is smaller than its parent. -/
theorem sizeOf_lt_of_mem_children (h : c ∈ n.children) : sizeOf c.node < sizeOf n.node := by
  obtain ⟨i, hchild, -⟩ := mem_children_iff.1 h
  exact Regex.sizeOf_lt_of_mem_children (List.mem_of_getElem? hchild)

end Located

/-! ### The walk -/

/-- Nothing pending is nothing to visit. -/
theorem walk_nil : walk [] = [] := by rw [walk]

/-- A visited node puts its children in front of what is pending. -/
theorem walk_cons (n : Located) (pending : List Located) :
    walk (n :: pending) = n :: walk (n.children ++ pending) := by rw [walk]

/-- What is pending later does not change what comes before. -/
theorem walk_append (pending later : List Located) :
    walk (pending ++ later) = walk pending ++ walk later := by
  fun_induction walk pending with
  | case1 => rfl
  | case2 n pending ih => rw [List.cons_append, walk_cons, ← List.append_assoc, ih, List.cons_append]

/-- The pending nodes are visited with all their descendants, one after another. -/
theorem walk_eq_flatMap (pending : List Located) :
    walk pending = pending.flatMap fun n => walk [n] := by
  induction pending with
  | nil => exact walk_nil
  | cons n pending ih => rw [List.flatMap_cons, ← ih, ← walk_append, List.singleton_append]

/-- A node, and then what is below each of its children. -/
theorem walk_singleton (n : Located) :
    walk [n] = n :: n.children.flatMap fun c => walk [c] := by
  rw [walk_cons, List.append_nil, ← walk_eq_flatMap]

/-- From a node, the walk visits what is reached by going down, under the address that this leads
to. -/
theorem mem_walk_singleton_iff (n m : Located) :
    m ∈ walk [n] ↔
      ∃ steps, m.path = steps.reverse ++ n.path ∧ n.node.at? steps = some m.node := by
  rw [walk_singleton, List.mem_cons, List.mem_flatMap]
  constructor
  · rintro (rfl | ⟨c, hc, hm⟩)
    · exact ⟨[], rfl, rfl⟩
    · -- The node is found from a child, and its path begins with the step to this child.
      have := Located.sizeOf_lt_of_mem_children hc
      obtain ⟨steps, hpath, hat⟩ := (mem_walk_singleton_iff c m).1 hm
      obtain ⟨i, hchild, hc⟩ := Located.mem_children_iff.1 hc
      refine ⟨i :: steps, ?_, ?_⟩
      · rw [hpath, hc, List.reverse_cons, List.append_assoc, List.singleton_append]
      · rw [at?, hchild, Option.bind_some, hat]
  · rintro ⟨steps, hpath, hat⟩
    cases steps with
    | nil =>
      left
      obtain ⟨path, node⟩ := m
      cases hpath
      cases hat
      rfl
    | cons i steps =>
      obtain ⟨child, hchild, hat⟩ := Option.bind_eq_some_iff.1 hat
      have hc : ⟨i :: n.path, child⟩ ∈ n.children := Located.mem_children_iff.2 ⟨i, hchild, rfl⟩
      have := Located.sizeOf_lt_of_mem_children hc
      refine Or.inr ⟨_, hc, (mem_walk_singleton_iff _ m).2 ⟨steps, ?_, hat⟩⟩
      rw [hpath, List.reverse_cons, List.append_assoc, List.singleton_append]
termination_by n.node

/-- The address of what is below a node begins with the address of the node. -/
theorem exists_of_mem_walk_singleton {n m : Located} (h : m ∈ walk [n]) :
    ∃ steps, m.path.reverse = n.path.reverse ++ steps := by
  obtain ⟨steps, hpath, -⟩ := (mem_walk_singleton_iff n m).1 h
  exact ⟨steps, by rw [hpath, List.reverse_append, List.reverse_reverse]⟩

/-- The walk goes through increasing addresses. -/
theorem increasing_walk_singleton (n : Located) :
    (walk [n]).Pairwise fun m m' => m.path.reverse < m'.path.reverse := by
  rw [walk_singleton, List.pairwise_cons, List.pairwise_flatMap]
  refine ⟨fun m hm => ?_, fun c hc => ?_, ?_⟩
  · -- What is below the node has a longer address.
    obtain ⟨c, hc, hm⟩ := List.mem_flatMap.1 hm
    obtain ⟨i, -, hpath⟩ := Located.mem_children_iff.1 hc
    obtain ⟨steps, hsteps⟩ := exists_of_mem_walk_singleton hm
    calc n.path.reverse
      _ = n.path.reverse ++ [] := (List.append_nil _).symm
      _ < n.path.reverse ++ ([i] ++ steps) := List.append_left_lt (List.nil_lt_cons i steps)
      _ = m.path.reverse := by rw [hsteps, hpath, List.reverse_cons, List.append_assoc]
  · have := Located.sizeOf_lt_of_mem_children hc
    exact increasing_walk_singleton c
  · -- What is below different children differs at the index of the child.
    refine n.pairwise_children.imp fun ⟨i, j, hlt, hi, hj⟩ m hm m' hm' => ?_
    obtain ⟨steps, hsteps⟩ := exists_of_mem_walk_singleton hm
    obtain ⟨steps', hsteps'⟩ := exists_of_mem_walk_singleton hm'
    rw [hsteps, hsteps', hi, hj, List.reverse_cons, List.reverse_cons, List.append_assoc,
      List.append_assoc]
    exact List.append_left_lt (List.Lex.rel hlt)
termination_by n.node

/-- The nodes of an expression come in preorder, each once. -/
theorem inPreorder_nodes (r : Regex) : r.InPreorder r.nodes where
  map_node := map_node_nodes r
  mem_iff n := by
    rw [nodes, mem_walk_singleton_iff]
    constructor
    · rintro ⟨steps, hpath, hat⟩
      rw [hpath, List.append_nil, List.reverse_reverse]
      exact hat
    · exact fun hat => ⟨n.path.reverse, by rw [List.reverse_reverse, List.append_nil], hat⟩
  increasing := increasing_walk_singleton _

/-! ### One node at a time -/

/-- A walk through an expression that stops at each node. -/
structure Visitor where
  /-- The nodes that are still to be visited, the next one last. -/
  stack : Array Located

namespace Visitor

/-- Nothing of the expression was visited. -/
def ofRegex (r : Regex) : Visitor := ⟨#[⟨[], r⟩]⟩

/-- Visits the node on top of the stack. Its children take its place, the first one on top. -/
def next (v : Visitor) : Option Located × Visitor :=
  match v.stack.back? with
  | none => (none, v)
  | some n => (some n, ⟨v.stack.pop ++ n.children.reverse⟩)

/-- The visitor after a number of calls. -/
def afterNexts (v : Visitor) : Nat → Visitor
  | 0 => v
  | k + 1 => afterNexts v.next.2 k

/-- What the call after `i` calls gives. -/
def itemAt (v : Visitor) (i : Nat) : Option Located := (v.afterNexts i).next.1

/-- The stack from its top down. -/
def pending (v : Visitor) : List Located := v.stack.toList.reverse

variable {v : Visitor} {n : Located} {rest : List Located}

/-- A visitor with nothing pending stops. -/
theorem next_of_nil (h : v.pending = []) : v.next = (none, v) := by
  have hback : v.stack.back? = none := by
    rw [← Array.getLast?_toList, List.reverse_eq_nil_iff.1 h, List.getLast?_nil]
  rw [next, hback]

/-- A visitor gives the first pending node, and has its children to visit before the others. -/
theorem next_of_cons (h : v.pending = n :: rest) :
    v.next.1 = some n ∧ v.next.2.pending = n.children ++ rest := by
  have hstack : v.stack.toList = rest.reverse ++ [n] := by
    rw [← List.reverse_cons, ← h, pending, List.reverse_reverse]
  have hback : v.stack.back? = some n := by
    rw [← Array.getLast?_toList, hstack, List.getLast?_concat]
  rw [next, hback]
  refine ⟨rfl, ?_⟩
  rw [pending, Array.toList_appendList, Array.toList_pop, hstack, List.dropLast_concat,
    List.reverse_append, List.reverse_reverse, List.reverse_reverse]

/-- The visitor gives what is left of the walk, node by node, and then nothing. -/
theorem itemAt_eq (v : Visitor) (i : Nat) : v.itemAt i = (walk v.pending)[i]? := by
  induction i generalizing v with
  | zero =>
    show v.next.1 = _
    cases h : v.pending with
    | nil => rw [next_of_nil h, walk_nil, List.getElem?_nil]
    | cons n rest => rw [(next_of_cons h).1, walk_cons, List.getElem?_cons_zero]
  | succ i ih =>
    show v.next.2.itemAt i = _
    rw [ih]
    cases h : v.pending with
    | nil => rw [next_of_nil h, h, walk_nil, List.getElem?_nil, List.getElem?_nil]
    | cons n rest => rw [(next_of_cons h).2, walk_cons, List.getElem?_cons_succ]

/-- A visitor of an expression gives all its nodes in order, and then nothing. -/
theorem itemAt_ofRegex (r : Regex) (i : Nat) : (ofRegex r).itemAt i = r.nodes[i]? :=
  itemAt_eq (ofRegex r) i

end Visitor

end Lexwright.Regex

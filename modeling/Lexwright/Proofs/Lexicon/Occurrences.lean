import Lexwright.Proofs.Automaton.Reports
import Lexwright.Proofs.Regex.Preorder

/-!
# `Lexwright.Proofs.Lexicon.Occurrences`: the first node of a label counts, and each later one is
reported

The labels are collected in one pass over the nodes of all the rules. What a label stands for, and
which nodes are reported, hangs on the order of this pass only.

* `getElem?_foldl_addLabel`: the table holds the first node that carries a label.
* `LaterLabel`: a node with a label. `LaterLabel.Lists` lists those whose label a node before them
  carries.
* `exists_later`: these nodes are reported, each once, in their order.
* `labels_first`: the order is that of the lexical states, of their rules, and of the preorder of
  each expression, which a walk with a stack goes through.
-/

set_option autoImplicit false

namespace Lexwright

open Regex

/-- A node that carries a label, with its index among the nodes. -/
structure LaterLabel where
  index : Nat
  label : String
  found : Labelled

namespace LaterLabel

/-- The node with the index carries the label, as does a node before it. -/
structure In (x : LaterLabel) (nodes : List Labelled) : Prop where
  found : nodes[x.index]? = some x.found
  label : x.found.node.tag.label = some x.label
  earlier : ∃ i < x.index, ∃ n, nodes[i]? = some n ∧ n.node.tag.label = some x.label

/-- The message that reports the node, at the position of the node. -/
def message (x : LaterLabel) : Message :=
  .error (located x.found.node.tag.pos s!"label '{x.label}' is already defined")

variable {x : LaterLabel} {nodes : List Labelled} {n : Labelled}

/-- An occurrence is at one of the nodes. -/
theorem In.lt (h : x.In nodes) : x.index < nodes.length :=
  (List.getElem?_eq_some_iff.1 h.found).1

/-- With one more node, what is repeated is what was repeated before, or this node. -/
theorem in_concat_iff :
    x.In (nodes ++ [n]) ↔ x.In nodes ∨ x.index = nodes.length ∧ x.found = n ∧
      n.node.tag.label = some x.label ∧ ∃ m ∈ nodes, m.node.tag.label = some x.label := by
  constructor
  · intro h
    obtain ⟨i, hi, m, hm, hmlabel⟩ := h.earlier
    have hlt := h.lt
    rw [List.length_append, List.length_singleton] at hlt
    have hfound := h.found
    rw [List.getElem?_append_left (by omega)] at hm
    rcases Nat.lt_succ_iff_lt_or_eq.1 hlt with hlt | heq
    · rw [List.getElem?_append_left hlt] at hfound
      exact Or.inl ⟨hfound, h.label, i, hi, m, hm, hmlabel⟩
    · -- The occurrence is the last node, and an earlier one has its label.
      rw [heq, List.getElem?_concat_length] at hfound
      cases hfound
      exact Or.inr ⟨heq, rfl, h.label, m, List.mem_of_getElem? hm, hmlabel⟩
  · rintro (h | ⟨hindex, rfl, hlabel, m, hm, hmlabel⟩)
    · obtain ⟨i, hi, m, hm, hmlabel⟩ := h.earlier
      have hlt := h.lt
      refine ⟨?_, h.label, i, hi, m, ?_, hmlabel⟩
      · rw [List.getElem?_append_left hlt, h.found]
      · rw [List.getElem?_append_left (by omega), hm]
    · obtain ⟨i, hi⟩ := List.getElem?_of_mem hm
      have hlt := (List.getElem?_eq_some_iff.1 hi).1
      refine ⟨?_, hlabel, i, hindex ▸ hlt, m, ?_, hmlabel⟩
      · rw [hindex, List.getElem?_concat_length]
      · rw [List.getElem?_append_left hlt, hi]

/-- The nodes of a list whose label a node before them carries, each once and in order. -/
structure Lists (later : List LaterLabel) (nodes : List Labelled) : Prop where
  order : later.Pairwise fun x y => x.index < y.index
  mem_iff : ∀ x, x ∈ later ↔ x.In nodes

variable {later : List LaterLabel}

/-- Among no nodes there is no later occurrence. -/
theorem lists_nil : Lists [] [] where
  order := .nil
  mem_iff _ := iff_of_false List.not_mem_nil fun h => absurd h.lt (Nat.not_lt_zero _)

/-- A further node with a label that is taken is listed. -/
theorem Lists.concat_taken (h : Lists later nodes) {label : String}
    (hlabel : n.node.tag.label = some label) (htaken : ∃ m ∈ nodes, m.node.tag.label = some label) :
    Lists (later ++ [⟨nodes.length, label, n⟩]) (nodes ++ [n]) where
  order := by
    refine List.pairwise_append.2 ⟨h.order, List.pairwise_singleton _ _, fun x hx y hy => ?_⟩
    rw [List.mem_singleton.1 hy]
    exact ((h.mem_iff x).1 hx).lt
  mem_iff x := by
    rw [List.mem_append, h.mem_iff, List.mem_singleton, in_concat_iff]
    refine or_congr_right ⟨?_, ?_⟩
    · rintro rfl
      exact ⟨rfl, rfl, hlabel, htaken⟩
    · rintro ⟨hindex, rfl, hlabel', -⟩
      rw [hlabel] at hlabel'
      cases x
      cases hindex
      cases hlabel'
      rfl

/-- A further node without a label, or with a new one, is not listed. -/
theorem Lists.concat_other (h : Lists later nodes)
    (hother : ∀ label, n.node.tag.label = some label → ¬∃ m ∈ nodes, m.node.tag.label = some label) :
    Lists later (nodes ++ [n]) where
  order := h.order
  mem_iff x := by
    rw [h.mem_iff, in_concat_iff, or_iff_left]
    exact fun ⟨_, _, hlabel, htaken⟩ => hother x.label hlabel htaken

end LaterLabel

namespace Lexicon

/-! ### One pass over the nodes -/

/-- A node is added under its label, unless the label is taken. -/
theorem getElem?_addLabel (found : Labels × List (Option Pos × Issue)) (n : Labelled)
    (name : String) :
    (addLabel found n).1[name]? =
      (found.1[name]?).or (if n.node.tag.label = some name then some n else none) := by
  cases hlabel : n.node.tag.label with
  | none => rw [addLabel_of_none hlabel, if_neg (fun h => nomatch h), Option.or_none]
  | some label =>
    simp only [Option.some.injEq]
    by_cases htaken : found.1.contains label = true
    · rw [addLabel_of_taken hlabel htaken]
      by_cases heq : label = name
      · -- The node that has the label keeps it.
        rw [heq, Std.HashMap.contains_eq_isSome_getElem?, Option.isSome_iff_exists] at htaken
        obtain ⟨first, hfirst⟩ := htaken
        rw [hfirst, Option.some_or]
      · rw [if_neg heq, Option.or_none]
    · rw [addLabel_of_new hlabel htaken, Std.HashMap.getElem?_insert]
      by_cases heq : label = name
      · rw [heq, Std.HashMap.contains_eq_isSome_getElem?, Bool.not_eq_true,
          Option.isSome_eq_false_iff, Option.isNone_iff_eq_none] at htaken
        rw [if_pos (beq_iff_eq.2 heq), if_pos heq, htaken, Option.none_or]
      · rw [if_neg (fun h => heq (beq_iff_eq.1 h)), if_neg heq, Option.or_none]

/-- What is in the table stays there. For any other label the first node counts. -/
theorem getElem?_foldl_addLabel (found : Labels × List (Option Pos × Issue))
    (nodes : List Labelled) (name : String) :
    (nodes.foldl addLabel found).1[name]? =
      (found.1[name]?).or (nodes.find? fun n => n.node.tag.label = some name) := by
  induction nodes generalizing found with
  | nil => rw [List.foldl_nil, List.find?_nil, Option.or_none]
  | cons n nodes ih =>
    rw [List.foldl_cons, ih, getElem?_addLabel, Option.or_assoc, List.find?_cons]
    by_cases hlabel : n.node.tag.label = some name
    · rw [if_pos hlabel, decide_eq_true hlabel, Option.some_or]
    · rw [if_neg hlabel, decide_eq_false hlabel, Option.none_or]

/-- A label is taken if a node carries it. -/
theorem contains_foldl_addLabel_iff (nodes : List Labelled) (name : String) :
    (nodes.foldl addLabel (∅, [])).1.contains name = true ↔
      ∃ m ∈ nodes, m.node.tag.label = some name := by
  rw [Std.HashMap.contains_eq_isSome_getElem?, getElem?_foldl_addLabel,
    Std.HashMap.getElem?_empty, Option.none_or, List.find?_isSome]
  simp only [decide_eq_true_eq]

/-- The nodes that are reported are those whose label a node before them carries, in order. -/
theorem exists_later (nodes : List Labelled) :
    ∃ later, LaterLabel.Lists later nodes ∧ (nodes.foldl addLabel (∅, [])).2 =
      later.map fun x => (x.found.node.tag.pos, .duplicateLabel x.label) := by
  -- A node is reported by the table of the nodes before it: the induction is on the last node.
  induction nodes using List.reverseRecOn with
  | nil => exact ⟨[], LaterLabel.lists_nil, rfl⟩
  | append_singleton nodes n ih =>
    obtain ⟨later, hlists, hissues⟩ := ih
    rw [List.foldl_concat]
    cases hlabel : n.node.tag.label with
    | none =>
      refine ⟨later, hlists.concat_other fun label h => ?_, ?_⟩
      · rw [hlabel] at h
        cases h
      · rw [addLabel_of_none hlabel, hissues]
    | some label =>
      by_cases htaken : (nodes.foldl addLabel (∅, [])).1.contains label = true
      · refine ⟨_, hlists.concat_taken hlabel ((contains_foldl_addLabel_iff nodes label).1 htaken),
          ?_⟩
        rw [addLabel_of_taken hlabel htaken, hissues, List.map_append, List.map_singleton]
      · refine ⟨later, hlists.concat_other fun label' h => ?_, ?_⟩
        · rw [hlabel] at h
          cases h
          rwa [← contains_foldl_addLabel_iff]
        · rw [addLabel_of_new hlabel htaken, hissues]

/-! ### The labels of a lexicon -/

/-- A walk with a stack goes through an expression in preorder, and then gives nothing any more. In
this order, over the lexical states and their rules, a label stands for the first node that carries
it. There is one error for each later node that carries it, and these come first in the log. -/
theorem labels_first (lexicon : Lexicon) (options : Options) (log : Log) :
    (∀ r : Regex, (∀ i, (Visitor.ofRegex r).itemAt i = r.nodes[i]?) ∧ r.InPreorder r.nodes) ∧
      lexicon.nodes.map (·.node) =
        (lexicon.states.flatMap fun s => s.rules.flatMap fun rule => rule.regex.preorder) ∧
      (∀ label, lexicon.labels.1[label]? =
        lexicon.nodes.find? fun n => n.node.tag.label = some label) ∧
      ∃ later, LaterLabel.Lists later lexicon.nodes ∧
        (log.pushAll (lexicon.labels.2.map fun x => x.2.message x.1)).messages.toList =
          log.messages.toList ++ later.map LaterLabel.message ∧
        (Builder.ofLexicon lexicon options).log.messages.toList =
          later.map LaterLabel.message ++
            lexicon.stateNames.2.map fun x => x.2.message x.1 := by
  obtain ⟨later, hlists, hissues⟩ := exists_later lexicon.nodes
  have hmessages : (lexicon.labels.2.map fun x => x.2.message x.1) =
      later.map LaterLabel.message := by
    rw [labels, hissues, List.map_map]
    rfl
  have hstored : ∀ issues : List (Option Pos × Issue),
      ∀ m ∈ issues.map fun x => x.2.message x.1, m ≠ .notStored := by
    intro issues m hm
    obtain ⟨x, -, rfl⟩ := List.mem_map.1 hm
    exact x.2.message_ne_notStored x.1
  refine ⟨fun r => ⟨Visitor.itemAt_ofRegex r, inPreorder_nodes r⟩, map_node_nodes lexicon,
    fun label => ?_, later, hlists, ?_, ?_⟩
  · rw [labels, getElem?_foldl_addLabel, Std.HashMap.getElem?_empty, Option.none_or]
  · rw [Log.messages_pushAll log (hstored _), hmessages]
  · show (({} : Log).pushAll ((lexicon.labels.2 ++ lexicon.stateNames.2).map
      fun x => x.2.message x.1)).messages.toList = _
    rw [Log.messages_pushAll _ (hstored _), List.map_append, hmessages]
    rfl

end Lexicon

end Lexwright

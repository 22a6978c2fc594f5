import Mathlib.Data.List.Nodup
import Lexwright.Lexicon.Labels
import Lexwright.Proofs.Language

/-!
# `Lexwright.Proofs.Lexicon.Labels`: what a label and a name stand for

* `map_node_nodes`: the nodes with their addresses are the parts of the lexicon, in order.
* `target_iff_labels`: where no label is reported, the table of the labels holds for each label
  the one node that carries it.
* `mem_labels_iff`: a label that is not reported stands for any node that carries it.
* `getElem?_stateNames`: the table of the names holds the first lexical state of each name.
* `labels_eq_nil_iff`, `nodup_names`: labels are unique just where none is reported, and names are
  unique where none is reported.
-/

set_option autoImplicit false

namespace Lexwright

/-! ### The nodes of a lexicon -/

namespace Regex

/-- The nodes of several expressions are those of each, in order. -/
theorem preorderAll_eq_flatMap (rs : List Regex) : preorderAll rs = rs.flatMap preorder := by
  induction rs with
  | nil => rw [preorderAll, List.flatMap_nil]
  | cons r rs ih => rw [preorderAll, List.flatMap_cons, ih]

/-- The preorder begins with the node itself and goes on through its children. -/
theorem preorder_eq (r : Regex) : r.preorder = r :: r.children.flatMap preorder := by
  cases r <;> simp [preorder, children, preorderAll_eq_flatMap]

/-- A child is smaller than its node. -/
theorem sizeOf_lt_of_mem_children {r part : Regex} (h : part ∈ r.children) :
    sizeOf part < sizeOf r := by
  cases r with
  | choice tag rs =>
    have := List.sizeOf_lt_of_mem (show part ∈ rs from h)
    simp only [choice.sizeOf_spec]
    omega
  | seq tag rs =>
    have := List.sizeOf_lt_of_mem (show part ∈ rs from h)
    simp only [seq.sizeOf_spec]
    omega
  | repeated tag count inner =>
    rw [List.mem_singleton.1 h]
    simp only [repeated.sizeOf_spec]
    omega
  | _ => exact absurd h List.not_mem_nil

/-- The children of a node of an expression are nodes of the expression. -/
theorem mem_preorder_of_mem_children {r node child : Regex} (hnode : node ∈ r.preorder)
    (hchild : child ∈ node.children) : child ∈ r.preorder := by
  rw [preorder_eq] at hnode ⊢
  rcases List.mem_cons.1 hnode with rfl | hnode
  · refine List.mem_cons_of_mem _ (List.mem_flatMap.2 ⟨child, hchild, ?_⟩)
    rw [preorder_eq]
    exact List.mem_cons_self
  · obtain ⟨part, hpart, hnode⟩ := List.mem_flatMap.1 hnode
    have := sizeOf_lt_of_mem_children hpart
    exact List.mem_cons_of_mem _
      (List.mem_flatMap.2 ⟨part, hpart, mem_preorder_of_mem_children hnode hchild⟩)
termination_by r

/-- The nodes that are visited are those of the pending trees, one tree after another. -/
theorem map_node_walk (pending : List Located) :
    (walk pending).map (·.node) = pending.flatMap fun n => n.node.preorder := by
  fun_induction walk pending with
  | case1 => rfl
  | case2 n pending ih =>
    rw [List.map_cons, ih, List.flatMap_append, List.flatMap_cons, preorder_eq,
      ← Located.map_node_children, List.flatMap_map]
    rfl

/-- The visited nodes are those of the preorder. -/
theorem map_node_nodes (r : Regex) : r.nodes.map (·.node) = r.preorder := by
  rw [nodes, map_node_walk, List.flatMap_singleton]

end Regex

namespace Lexicon

/-- What is listed for each element does not depend on its index. -/
theorem flatMap_zipIdx {α β : Type} (l : List α) (f : α → List β) (k : Nat) :
    (l.zipIdx k).flatMap (fun x => f x.1) = l.flatMap f := by
  rw [← List.flatMap_map (f := Prod.fst) (g := f), List.zipIdx_map_fst]

/-- The nodes with their addresses are the parts of the lexicon, in order. -/
theorem map_node_nodes (lexicon : Lexicon) : lexicon.nodes.map (·.node) = lexicon.parts := by
  unfold nodes parts
  rw [List.map_flatMap]
  simp only [List.map_flatMap, List.map_map, Function.comp_def]
  rw [flatMap_zipIdx lexicon.states fun s => s.rules.zipIdx.flatMap fun r =>
    r.1.regex.nodes.map fun n => n.node]
  refine congrArg (List.flatMap · lexicon.states) (funext fun s => ?_)
  rw [flatMap_zipIdx s.rules fun r => r.regex.nodes.map fun n => n.node]
  exact congrArg (List.flatMap · s.rules) (funext fun r => Regex.map_node_nodes r.regex)

/-- The children of a part are parts. -/
theorem mem_parts_of_mem_children {lexicon : Lexicon} {node child : Regex}
    (hnode : node ∈ lexicon.parts) (hchild : child ∈ node.children) : child ∈ lexicon.parts := by
  obtain ⟨state, hstate, hnode⟩ := List.mem_flatMap.1 hnode
  obtain ⟨rule, hrule, hnode⟩ := List.mem_flatMap.1 hnode
  exact List.mem_flatMap.2 ⟨state, hstate, List.mem_flatMap.2 ⟨rule, hrule,
    Regex.mem_preorder_of_mem_children hnode hchild⟩⟩

/-! ### The table of the labels -/

section

variable {found : Labels × List (Option Pos × Issue)} {n : Labelled} {label : String}

/-- A node without a label adds nothing. -/
theorem addLabel_of_none (hlabel : n.node.tag.label = none) : addLabel found n = found := by
  rw [addLabel, hlabel]

/-- A label that is taken is reported and not stored again. -/
theorem addLabel_of_taken (hlabel : n.node.tag.label = some label)
    (htaken : found.1.contains label = true) :
    addLabel found n = (found.1, found.2 ++ [(n.node.tag.pos, .duplicateLabel label)]) := by
  rw [addLabel, hlabel]
  exact if_pos htaken

/-- A new label is stored with its node. -/
theorem addLabel_of_new (hlabel : n.node.tag.label = some label)
    (hnew : ¬found.1.contains label = true) :
    addLabel found n = (found.1.insert label n, found.2) := by
  rw [addLabel, hlabel]
  exact if_neg hnew

end

/-- What was reported stays reported. -/
theorem addLabel_snd_eq_nil {found : Labels × List (Option Pos × Issue)} {nodes : List Labelled}
    (h : (nodes.foldl addLabel found).2 = []) : found.2 = [] := by
  induction nodes generalizing found with
  | nil => exact h
  | cons n nodes ih =>
    have hstep := ih h
    unfold addLabel at hstep
    split at hstep
    · exact hstep
    · split at hstep
      · exact absurd hstep (by simp)
      · exact hstep

/-- Where no label is reported, the table holds for each label the nodes that carry it: there is at
most one. -/
theorem toList_foldl_addLabel {found : Labels × List (Option Pos × Issue)}
    {nodes : List Labelled} (h : (nodes.foldl addLabel found).2 = []) (name : String) :
    ((nodes.foldl addLabel found).1[name]?).toList =
      (found.1[name]?).toList ++ nodes.filter fun n => n.node.tag.label = some name := by
  induction nodes generalizing found with
  | nil => exact (List.append_nil _).symm
  | cons n nodes ih =>
    have hnil : (addLabel found n).2 = [] :=
      addLabel_snd_eq_nil (show (nodes.foldl addLabel (addLabel found n)).2 = [] from h)
    rw [List.foldl_cons, ih h]
    unfold addLabel at hnil ⊢
    split
    · rename_i hlabel
      rw [List.filter_cons_of_neg (by simp [hlabel])]
    · rename_i label hlabel
      simp only [hlabel] at hnil
      split at hnil
      -- A label that the table already has is reported.
      · exact absurd hnil (by simp)
      · rename_i hnew
        rw [if_neg hnew]
        simp only
        rw [Std.HashMap.getElem?_insert]
        -- The label is new: under `name` the table had nothing if this is the label it asks for.
        by_cases heq : label = name
        · subst heq
          rw [Std.HashMap.getElem?_eq_none fun hmem => hnew (by simpa using hmem),
            List.filter_cons_of_pos (by simp [hlabel])]
          simp
        · rw [List.filter_cons_of_neg (by simp [hlabel, heq])]
          simp [heq]

/-- Where no label is reported, a label stands for the node that the table holds. -/
theorem target_iff_labels {lexicon : Lexicon} (h : lexicon.labels.2 = []) (name : String)
    (r : Regex) :
    lexicon.Target name r ↔ ∃ n, lexicon.labels.1[name]? = some n ∧ n.node = r := by
  have hlabels := toList_foldl_addLabel h name
  rw [Std.HashMap.getElem?_empty, Option.toList_none, List.nil_append] at hlabels
  unfold Target
  rw [← map_node_nodes, List.filter_map]
  show ((lexicon.nodes.filter fun n => n.node.tag.label = some name).map (·.node)) = [r] ↔ _
  rw [← hlabels]
  show (lexicon.labels.1[name]?).toList.map (·.node) = [r] ↔ _
  cases lexicon.labels.1[name]? with
  | none => simp
  | some n => simp

/-- A label that is not reported stands for any node that carries it. -/
theorem mem_labels_iff {lexicon : Lexicon} (h : lexicon.labels.2 = []) {name : String} {r : Regex} :
    (∃ n, lexicon.labels.1[name]? = some n ∧ n.node = r) ↔
      r ∈ lexicon.parts ∧ r.tag.label = some name := by
  have hlabels := toList_foldl_addLabel h name
  rw [Std.HashMap.getElem?_empty, Option.toList_none, List.nil_append] at hlabels
  have hmem : r ∈ (lexicon.labels.1[name]?).toList.map (·.node) ↔
      r ∈ lexicon.parts.filter fun node => node.tag.label = some name := by
    rw [← map_node_nodes, List.filter_map]
    exact iff_of_eq (congrArg (r ∈ ·.map (·.node)) hlabels)
  rw [List.mem_filter, decide_eq_true_eq] at hmem
  rw [← hmem]
  simp

/-- Where no label is reported, no two nodes carry the same label. -/
theorem nodup_labels {lexicon : Lexicon} (h : lexicon.labels.2 = []) :
    (lexicon.parts.filterMap fun node => node.tag.label).Nodup := by
  rw [List.nodup_iff_count_le_one]
  intro name
  have hlabels := toList_foldl_addLabel h name
  rw [Std.HashMap.getElem?_empty, Option.toList_none, List.nil_append] at hlabels
  calc (lexicon.parts.filterMap fun node => node.tag.label).count name
    _ = (lexicon.nodes.filter fun n => n.node.tag.label = some name).length := by
      rw [← map_node_nodes, List.filterMap_map, List.count_filterMap, ← List.countP_eq_length_filter]
      exact List.countP_congr fun n _ => by simp
    _ = (lexicon.labels.1[name]?).toList.length := by
      rw [← hlabels]
      rfl
    _ ≤ 1 := by
      cases lexicon.labels.1[name]? with
      | none => exact Nat.zero_le 1
      | some n => exact Nat.le_refl 1

/-- Where the labels are new and no two nodes carry the same one, nothing is reported. -/
theorem foldl_addLabel_eq_nil {found : Labels × List (Option Pos × Issue)}
    {nodes : List Labelled} (hfound : found.2 = [])
    (hnodup : (nodes.filterMap fun n => n.node.tag.label).Nodup)
    (hnew : ∀ n ∈ nodes, ∀ label, n.node.tag.label = some label →
      found.1.contains label = false) : (nodes.foldl addLabel found).2 = [] := by
  induction nodes generalizing found with
  | nil => exact hfound
  | cons n nodes ih =>
    obtain ⟨hfirst, hrest⟩ := List.forall_mem_cons.1 hnew
    cases hlabel : n.node.tag.label with
    | none =>
      rw [List.filterMap_cons, hlabel] at hnodup
      rw [List.foldl_cons, addLabel_of_none hlabel]
      exact ih hfound hnodup hrest
    | some label =>
      rw [List.filterMap_cons, hlabel] at hnodup
      obtain ⟨hother, hnodup⟩ := List.nodup_cons.1 hnodup
      have hfree : ¬found.1.contains label = true := Bool.eq_false_iff.1 (hfirst label hlabel)
      rw [List.foldl_cons, addLabel_of_new hlabel hfree]
      refine ih hfound hnodup fun n' hn' label' hlabel' => ?_
      -- The label that was added is that of no later node.
      rw [Std.HashMap.contains_insert, hrest n' hn' label' hlabel', Bool.or_false,
        beq_eq_false_iff_ne]
      rintro rfl
      exact hother (List.mem_filterMap.2 ⟨n', hn', hlabel'⟩)

/-- A label is reported exactly where two nodes carry the same one. -/
theorem labels_eq_nil_iff {lexicon : Lexicon} :
    lexicon.labels.2 = [] ↔ (lexicon.parts.filterMap fun node => node.tag.label).Nodup := by
  refine ⟨nodup_labels, fun hnodup => foldl_addLabel_eq_nil rfl ?_ fun n _ label _ => ?_⟩
  · rw [← map_node_nodes, List.filterMap_map] at hnodup
    exact hnodup
  · exact Std.HashMap.contains_empty

/-- What a reference leads to is a part of the lexicon. -/
theorem mem_parts_of_target {lexicon : Lexicon} {name : String} {r : Regex}
    (h : lexicon.Target name r) : r ∈ lexicon.parts :=
  (List.mem_filter.1 (h ▸ List.mem_singleton.2 rfl)).1

/-- Where no label is reported, the label of a node stands for the node. -/
theorem target_of_mem_parts {lexicon : Lexicon} (h : lexicon.labels.2 = []) {name : String}
    {r : Regex} (hr : r ∈ lexicon.parts) (hlabel : r.tag.label = some name) :
    lexicon.Target name r := by
  rw [← map_node_nodes] at hr
  obtain ⟨n, hn, rfl⟩ := List.mem_map.1 hr
  have hlabels := toList_foldl_addLabel h name
  rw [Std.HashMap.getElem?_empty, Option.toList_none, List.nil_append] at hlabels
  refine (target_iff_labels h name n.node).2 ⟨n, Option.mem_toList.1 ?_, rfl⟩
  exact hlabels ▸ List.mem_filter.2 ⟨hn, decide_eq_true hlabel⟩

/-! ### The table of the names -/

/-- A name stands for the first state that has it. -/
theorem getElem?_foldl_addName {states : List LexState} {k : Nat}
    {found : Std.HashMap String Nat × List (Option Pos × Issue)} {name : String} :
    ((states.zipIdx k).foldl addName found).1[name]? =
      (found.1[name]?).or ((states.findIdx? (·.name = name)).map (· + k)) := by
  -- The table found so far takes precedence over the states that follow, counted from `k` on.
  induction states generalizing k found with
  | nil => simp
  | cons s states ih =>
    rw [List.zipIdx_cons, List.foldl_cons, ih, List.findIdx?_cons]
    have hfound : (addName found (s, k)).1[name]? =
        (found.1[name]?).or (if s.name = name then some k else none) := by
      unfold addName
      split
      · rename_i hmem
        -- The name is taken: the earlier lexical state keeps it.
        by_cases heq : s.name = name
        · rw [if_pos heq]
          subst heq
          obtain ⟨i, hi⟩ := Option.isSome_iff_exists.1 (Std.HashMap.mem_iff_isSome_getElem?.1 hmem)
          rw [hi]
          rfl
        · rw [if_neg heq, Option.or_none]
      · rename_i hnew
        simp only
        rw [Std.HashMap.getElem?_insert]
        by_cases heq : s.name = name
        · subst heq
          rw [Std.HashMap.getElem?_eq_none fun hmem => hnew (by simpa using hmem)]
          simp
        · simp [heq]
    rw [hfound]
    by_cases heq : s.name = name
    · simp [heq]
    · have hadd : (fun i => i + (k + 1)) = (fun i => i + k) ∘ fun i => i + 1 :=
        funext fun i => show i + (k + 1) = i + 1 + k by omega
      simp only [heq, if_false, decide_false, Bool.false_eq_true, Option.or_none, Option.map_map,
        hadd]

/-- What was reported stays reported. -/
theorem addName_snd_eq_nil {states : List (LexState × Nat)}
    {found : Std.HashMap String Nat × List (Option Pos × Issue)}
    (h : (states.foldl addName found).2 = []) : found.2 = [] := by
  induction states generalizing found with
  | nil => exact h
  | cons s states ih =>
    have hstep := ih h
    unfold addName at hstep
    split at hstep
    · exact absurd hstep (by simp)
    · exact hstep

/-- Where no name is reported, the names are new, and no two of them are the same. -/
theorem nodup_of_foldl_addName {states : List (LexState × Nat)}
    {found : Std.HashMap String Nat × List (Option Pos × Issue)}
    (h : (states.foldl addName found).2 = []) :
    (states.map fun s => s.1.name).Nodup ∧
      ∀ s ∈ states, found.1.contains s.1.name = false := by
  induction states generalizing found with
  | nil => exact ⟨.nil, fun s hs => absurd hs List.not_mem_nil⟩
  | cons s states ih =>
    have hnil : (addName found s).2 = [] :=
      addName_snd_eq_nil (show (states.foldl addName (addName found s)).2 = [] from h)
    obtain ⟨hnodup, hlater⟩ := ih h
    unfold addName at hnil hlater
    split at hnil
    -- A name that the table already has is reported.
    · exact absurd hnil (by simp)
    · rename_i hnew
      rw [if_neg hnew] at hlater
      simp only [Std.HashMap.contains_insert, Bool.or_eq_false_iff, beq_eq_false_iff_ne] at hlater
      refine ⟨List.nodup_cons.2 ⟨fun hmem => ?_, hnodup⟩, fun s' hs' => ?_⟩
      · obtain ⟨s', hs', hname⟩ := List.mem_map.1 hmem
        exact (hlater s' hs').1 hname.symm
      · rcases List.mem_cons.1 hs' with rfl | hs'
        · exact Bool.eq_false_iff.2 hnew
        · exact (hlater s' hs').2

/-- Where no name is reported, no two lexical states have the same name. -/
theorem nodup_names {lexicon : Lexicon} (h : lexicon.stateNames.2 = []) :
    (lexicon.states.map (·.name)).Nodup := by
  obtain ⟨hnodup, -⟩ := nodup_of_foldl_addName h
  rw [show (fun s : LexState × Nat => s.1.name) = (·.name) ∘ Prod.fst from rfl, ← List.map_map,
    List.zipIdx_map_fst] at hnodup
  exact hnodup

/-- The table of the names holds the first lexical state of each name. -/
theorem getElem?_stateNames (lexicon : Lexicon) (name : String) :
    lexicon.stateNames.1[name]? = lexicon.states.findIdx? (·.name = name) := by
  unfold stateNames
  rw [getElem?_foldl_addName, Std.HashMap.getElem?_empty]
  simp

end Lexicon

end Lexwright

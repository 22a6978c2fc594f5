import Mathlib.Order.WellFounded
import Lexwright.Proofs.Lexicon.Labels
import Lexwright.Proofs.Pattern.Resolve

/-!
# `Lexwright.Proofs.Pattern.Visits`: the nodes that resolving visits

Resolving goes from a node to its children, and from a reference to the labelled node, which may be
anywhere in the lexicon. A visit is a node with the labels that are open there.

* `Regex.inlined`: the parts of a node that are copied.
* `Visit.next`: the visits to which a visit leads, inverted by `Visit.cases_next`.
* `Visit.result_eq`: what becomes of a visit, as one equation for all nodes.
* `Visit.wellFounded_next`: no sequence of visits goes on for ever. Either a label more is open, or
  the node is smaller. So resolving by the equation ends (`Visit.exists_resultWithin`).
-/

set_option autoImplicit false

namespace Lexwright

/-- The parts of a node that are copied: none of a repetition that is reported, or that holds no
copy. -/
def Regex.inlined (limit : Nat) : Regex → List Regex
  | choice _ rs | seq _ rs => rs
  | repeated _ count inner =>
    if (count.issue? limit).isSome || count.isNever then [] else [inner]
  | _ => []

/-- What a node inlines are parts of it. -/
theorem Regex.inlined_subset_children (limit : Nat) (r : Regex) :
    ∀ part ∈ r.inlined limit, part ∈ r.children := by
  intro part hpart
  cases r with
  | choice tag rs => exact hpart
  | seq tag rs => exact hpart
  | repeated tag count inner =>
    simp only [inlined] at hpart
    split at hpart
    · exact absurd hpart List.not_mem_nil
    · exact hpart
  | _ => exact absurd hpart List.not_mem_nil

/-! ### Lists in depth -/

/-- If every member has a result, the list has the list of the results. -/
theorem mapM_eq_some {α β : Type} {f : α → Option β} {g : α → β} {as : List α}
    (h : ∀ a ∈ as, f a = some (g a)) : as.mapM f = some (as.map g) := by
  induction as with
  | nil => rfl
  | cons a as ih =>
    obtain ⟨hfirst, hrest⟩ := List.forall_mem_cons.1 h
    simp [hfirst, ih hrest]

/-- Some depth is enough for all the members of a list, if some depth is enough for each. -/
theorem exists_depth {α : Type} {P : α → Nat → Prop} {as : List α}
    (h : ∀ a ∈ as, ∃ depth, ∀ deeper, depth ≤ deeper → P a deeper) :
    ∃ depth, ∀ deeper, depth ≤ deeper → ∀ a ∈ as, P a deeper := by
  induction as with
  | nil => exact ⟨0, fun _ _ a ha => absurd ha List.not_mem_nil⟩
  | cons a as ih =>
    obtain ⟨hfirst, hrest⟩ := List.forall_mem_cons.1 h
    obtain ⟨depth, hdepth⟩ := hfirst
    obtain ⟨depth', hdepth'⟩ := ih hrest
    refine ⟨max depth depth', fun deeper hle => List.forall_mem_cons.2 ⟨?_, ?_⟩⟩
    · exact hdepth deeper (Nat.le_trans (Nat.le_max_left ..) hle)
    · exact hdepth' deeper (Nat.le_trans (Nat.le_max_right ..) hle)

/-! ### Visits -/

/-- A node that is being resolved, with its address and the labels that are open there. -/
structure Visit where
  opened : List String
  site : Site
  node : Regex

namespace Visit

/-- The visits to which a visit leads: to the parts that are copied, or to the node that a reference
stands for, unless the label is open. -/
def next (k : Scope) (v : Visit) : List Visit :=
  match v.node with
  | .ref tag name =>
    if (tag.open v.opened).contains name then []
    else (k.labels[name]?).toList.map fun n => ⟨name :: tag.open v.opened, n.site, n.node⟩
  | r => (r.inlined k.limit).zipIdx.map fun c => ⟨r.tag.open v.opened, v.site.child c.2, c.1⟩

/-- What is wrong with the node itself. -/
def own (k : Scope) (v : Visit) : List Finding :=
  let issues := match v.node with
    | .chars tag negated ranges =>
      invalidRanges ranges ++
        if (k.classSet negated ranges).isEmpty then
          [Issue.emptyClass (Regex.chars tag negated ranges).display]
        else []
    | .repeated _ count _ => (count.issue? k.limit).toList
    | .eof _ => [.misplacedEof]
    | .ref tag name =>
      if (tag.open v.opened).contains name then [.recursiveReference name]
      else if (k.labels[name]?).isSome then []
      else [.undefinedReference name]
    | _ => []
  issues.map (⟨v.site, v.node.tag.pos, ·⟩)

/-- The pattern of the node, made of the patterns of the visits to which the visit leads. A
reference that leads nowhere stands for the empty text. -/
def assemble (k : Scope) (v : Visit) (parts : List Pattern) : Pattern :=
  match v.node with
  | .chars _ negated ranges => .chars (k.classSet negated ranges)
  | .literal _ text => .literal (text.toList.map k.charSet)
  | .choice _ _ => .choice parts
  | .seq _ _ => .seq parts
  | .repeated _ count _ =>
    if (count.issue? k.limit).isSome then .empty else .repeated count (parts.headD .empty)
  | .eof _ => .empty
  | .ref _ _ => parts.headD .empty

/-- The pattern of the node, and what is found on the way. -/
def result (k : Scope) (v : Visit) : Pattern × List Finding := v.node.resolve k v.opened v.site

/-- What becomes of a visit, given what becomes of the visits to which it leads. -/
def combine (k : Scope) (v : Visit) (later : List (Pattern × List Finding)) :
    Pattern × List Finding :=
  (v.assemble k (later.map (·.1)), v.own k ++ later.flatMap (·.2))

variable {k : Scope} {v w : Visit} {opened : List String} {site : Site}

/-- A list of expressions is resolved one after another, each at its own address. -/
theorem resolveAll_eq (i : Nat) (rs : List Regex) :
    Regex.resolveAll k opened site i rs =
      (((rs.zipIdx i).map fun c => c.1.resolve k opened (site.child c.2)).map (·.1),
        ((rs.zipIdx i).map fun c => c.1.resolve k opened (site.child c.2)).flatMap (·.2)) := by
  induction rs generalizing i with
  | nil => rw [Regex.resolveAll, List.zipIdx_nil, List.map_nil, List.map_nil, List.flatMap_nil]
  | cons r rest ih =>
    rw [Regex.resolveAll, ih, List.zipIdx_cons, List.map_cons, List.map_cons, List.flatMap_cons]

/-- Resolving goes through the visits, and through nothing else. -/
theorem result_eq (k : Scope) (v : Visit) :
    v.result k = v.combine k ((v.next k).map (result k)) := by
  obtain ⟨opened, site, node⟩ := v
  unfold result combine assemble own next
  cases node with
  | chars tag negated ranges => simp [Regex.resolve, Regex.tag, Regex.inlined]
  | literal tag text => simp [Regex.resolve, Regex.inlined]
  | choice tag rs =>
    simp [Regex.resolve, Regex.tag, Regex.inlined, resolveAll_eq, Function.comp_def]
  | seq tag rs =>
    simp [Regex.resolve, Regex.tag, Regex.inlined, resolveAll_eq, Function.comp_def]
  | repeated tag count inner =>
    rw [Regex.resolve]
    cases hissue : count.issue? k.limit with
    | some issue => simp [hissue, Regex.tag, Regex.inlined]
    | none =>
      by_cases hnever : count.isNever = true
      · simp [hissue, hnever, Regex.inlined]
      · simp [hissue, hnever, Regex.tag, Regex.inlined]
  | eof tag => simp [Regex.resolve, Regex.tag, Regex.inlined]
  | ref tag name =>
    by_cases hopen : (tag.open opened).contains name = true
    · rw [Regex.resolve, dif_pos hopen]
      simp only [hopen, if_true, List.flatMap_nil, List.append_nil, List.map_nil]
      rfl
    · simp only [hopen, Bool.false_eq_true, if_false]
      cases hnode : k.labels[name]? with
      | none =>
        rw [Regex.resolve_ref_of_none hopen hnode]
        rfl
      | some node =>
        rw [Regex.resolve_ref_of_some hopen hnode]
        simp

/-- What is found in a visit is what is wrong with its node, and what is found in the visits to
which it leads. -/
theorem snd_result (k : Scope) (v : Visit) :
    (v.result k).2 = v.own k ++ (v.next k).flatMap fun w => (w.result k).2 := by
  rw [result_eq, combine, List.flatMap_map]

/-- A visit leads to a part of its node, or from a reference whose label is not open to what the
label stands for. -/
theorem cases_next (hw : w ∈ v.next k) :
    (w.opened = v.node.tag.open v.opened ∧ w.node ∈ v.node.inlined k.limit) ∨
      ∃ tag name n, v.node = .ref tag name ∧ (tag.open v.opened).contains name = false ∧
        k.labels[name]? = some n ∧ w = ⟨name :: tag.open v.opened, n.site, n.node⟩ := by
  unfold next at hw
  split at hw
  · rename_i tag name hnode
    split at hw
    · exact absurd hw List.not_mem_nil
    · rename_i hopen
      obtain ⟨n, hn, rfl⟩ := List.mem_map.1 hw
      exact Or.inr ⟨tag, name, n, hnode, Bool.eq_false_iff.2 hopen, Option.mem_toList.1 hn, rfl⟩
  · obtain ⟨c, hc, rfl⟩ := List.mem_map.1 hw
    exact Or.inl ⟨rfl, List.fst_mem_of_mem_zipIdx hc⟩

/-- A visit leads to every part of its node that is copied. -/
theorem exists_next_of_mem_inlined {part : Regex} (hpart : part ∈ v.node.inlined k.limit) :
    ∃ w ∈ v.next k, w.node = part := by
  unfold next
  split
  · rename_i hnode
    rw [hnode] at hpart
    exact absurd hpart List.not_mem_nil
  · obtain ⟨i, hi⟩ := List.getElem?_of_mem hpart
    exact ⟨_, List.mem_map.2 ⟨(part, i), List.mem_zipIdx_iff_getElem?.2 hi, rfl⟩, rfl⟩

/-! ### Resolving ends -/

/-- The number of labels that are not open, and the size of the node. -/
noncomputable def measure (k : Scope) (v : Visit) : Nat × Nat :=
  (unopened k.labels v.opened, sizeOf v.node)

/-- A visit leads to visits of smaller nodes, or to visits in which a label more is open. -/
theorem measure_lt (hw : w ∈ v.next k) :
    Prod.Lex (· < ·) (· < ·) (w.measure k) (v.measure k) := by
  rcases cases_next hw with ⟨hopened, hpart⟩ | ⟨tag, name, n, hnode, hopen, hn, rfl⟩
  · refine Prod.Lex.right' _ ?_
      (Regex.sizeOf_lt_of_mem_children (Regex.inlined_subset_children _ _ _ hpart))
    rw [hopened]
    exact unopened_open_le ..
  · exact Prod.Lex.left _ _
      (Nat.lt_of_lt_of_le (unopened_cons_lt hopen hn) (unopened_open_le ..))

/-- No visit makes visits for ever: every step opens a label or goes into a smaller node. -/
theorem wellFounded_next (k : Scope) : WellFounded fun w v : Visit => w ∈ v.next k :=
  Subrelation.wf measure_lt
    (InvImage.wf (measure k) (Prod.lex Nat.lt_wfRel Nat.lt_wfRel).wf)

/-- Resolving by visits alone, given up where the visits are nested to a depth. -/
def resultWithin (k : Scope) : Nat → Visit → Option (Pattern × List Finding)
  | 0, _ => none
  | depth + 1, v => ((v.next k).mapM (resultWithin k depth)).map (v.combine k)

/-- Resolving ends, though a reference leads to a node that may be anywhere: at some depth, and at
every greater one, nothing is given up. -/
theorem exists_resultWithin (k : Scope) (v : Visit) :
    ∃ depth, ∀ deeper, depth ≤ deeper → v.resultWithin k deeper = some (v.result k) := by
  induction v using (wellFounded_next k).induction with
  | _ v ih =>
    obtain ⟨depth, hdepth⟩ := exists_depth ih
    refine ⟨depth + 1, fun deeper hle => ?_⟩
    obtain ⟨deeper, rfl⟩ : ∃ d, deeper = d + 1 := ⟨deeper - 1, by omega⟩
    have hlater : (v.next k).mapM (resultWithin k deeper) = some ((v.next k).map (result k)) :=
      mapM_eq_some (hdepth deeper (by omega))
    rw [resultWithin, hlater, result_eq]
    rfl

end Visit

end Lexwright

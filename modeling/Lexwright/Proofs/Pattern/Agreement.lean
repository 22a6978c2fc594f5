import Lexwright.Proofs.Pattern.Visits

/-!
# `Lexwright.Proofs.Pattern.Agreement`: labels that are not referenced do not matter

Resolving asks a scope for the labels that are referenced where it goes, and for no other label. So
two scopes that hold the same nodes for these labels give one pattern and one list of issues, even
if the addresses of the nodes differ.

* `Scope.Agrees`: two scopes hold the same nodes for what some nodes refer to.
* `Visit.outcome`: what becomes of a visit, without addresses.
* `Visit.outcome_congr`, `Regex.resolve_congr`: the outcome is the same in both scopes.
-/

set_option autoImplicit false

namespace Lexwright

/-- Both scopes hold the same nodes for the labels that the given nodes refer to. The nodes are
closed: their parts and what they refer to are among them. -/
structure Scope.Agrees (nodes : Regex → Prop) (k k' : Scope) : Prop where
  ignoreCase : k'.ignoreCase = k.ignoreCase
  limit : k'.limit = k.limit
  part : ∀ {r child : Regex}, nodes r → child ∈ r.children → nodes child
  target : ∀ {tag : Tag} {name : String} {n : Labelled}, nodes (.ref tag name) →
    k.labels[name]? = some n → nodes n.node
  label : ∀ {tag : Tag} {name : String}, nodes (.ref tag name) →
    (k'.labels[name]?).map (·.node) = (k.labels[name]?).map (·.node)

/-- A scope agrees with itself on all nodes. -/
theorem Scope.Agrees.refl (k : Scope) : k.Agrees (fun _ => True) k where
  ignoreCase := rfl
  limit := rfl
  part _ _ := trivial
  target _ _ := trivial
  label _ := rfl

namespace Visit

variable {nodes : Regex → Prop} {k k' : Scope} {v v' w : Visit}

/-- A visit without its address. -/
def core (v : Visit) : List String × Regex := (v.opened, v.node)

/-- The pattern of a visit, and the issues that are found. -/
def outcome (k : Scope) (v : Visit) : Pattern × List Issue :=
  ((v.result k).1, (v.result k).2.map (·.issue))

/-- What is wrong with the node itself, without its address. -/
def ownIssues (k : Scope) (v : Visit) : List Issue := (v.own k).map (·.issue)

/-- What becomes of a visit is put together from what becomes of the visits that it makes. -/
theorem outcome_eq (k : Scope) (v : Visit) :
    v.outcome k = (v.assemble k (((v.next k).map (outcome k)).map (·.1)),
      v.ownIssues k ++ ((v.next k).map (outcome k)).flatMap (·.2)) := by
  simp only [outcome, ownIssues, result_eq k v, combine, List.map_map, List.map_append,
    List.map_flatMap, List.flatMap_map, Function.comp_def]

/-- Lists of visits that differ in the addresses only have the same outcomes, if any two such visits
have. -/
theorem map_outcome_congr {vs vs' : List Visit} (hcores : vs'.map core = vs.map core)
    (h : ∀ v ∈ vs, ∀ v' : Visit, v'.core = v.core → v'.outcome k' = v.outcome k) :
    vs'.map (outcome k') = vs.map (outcome k) := by
  induction vs generalizing vs' with
  | nil =>
    rw [List.map_eq_nil_iff.1 hcores]
    rfl
  | cons v vs ih =>
    obtain ⟨v', vs', rfl, hfirst, hrest⟩ := List.map_eq_cons_iff.1 hcores
    obtain ⟨hv, hvs⟩ := List.forall_mem_cons.1 h
    rw [List.map_cons, List.map_cons, hv v' hfirst, ih hrest hvs]

/-- Visits stay among the nodes on which the scopes agree. -/
theorem nodes_of_next (h : k.Agrees nodes k') (hv : nodes v.node) (hw : w ∈ v.next k) :
    nodes w.node := by
  rcases cases_next hw with ⟨-, hpart⟩ | ⟨tag, name, n, hnode, -, hn, rfl⟩
  · exact h.part hv (Regex.inlined_subset_children _ _ _ hpart)
  · rw [hnode] at hv
    exact h.target hv hn

/-- In both scopes the visit leads to the same nodes, with the same labels open. -/
theorem map_core_next (h : k.Agrees nodes k') (hv : nodes v.node) (hcore : v'.core = v.core) :
    (v'.next k').map core = (v.next k).map core := by
  obtain ⟨opened, site, node⟩ := v
  obtain ⟨opened', site', node'⟩ := v'
  obtain ⟨rfl, rfl⟩ := Prod.mk.injEq .. ▸ hcore
  have hparts : ∀ (parts : List Regex) (inner : List String) (site : Site),
      (parts.zipIdx.map fun c => (⟨inner, site.child c.2, c.1⟩ : Visit)).map core =
        parts.map fun part => (inner, part) := by
    intro parts inner site
    rw [List.map_map]
    exact (List.map_map (f := Prod.fst) (g := fun part => (inner, part))).symm.trans
      (by rw [List.zipIdx_map_fst])
  unfold next
  cases node' with
  | ref tag name =>
    simp only
    split
    · rfl
    · have hlabel := h.label hv
      cases hn : k.labels[name]? <;> cases hn' : k'.labels[name]? <;> simp_all [core]
  | _ => simp only [hparts, h.limit]

/-- A node is put together alike in both scopes. -/
theorem assemble_congr (h : k.Agrees nodes k') (hnode : v'.node = v.node) (parts : List Pattern) :
    v'.assemble k' parts = v.assemble k parts := by
  have hchar : k'.charSet = k.charSet := funext fun c => by
    simp only [Scope.charSet, h.ignoreCase]
  unfold assemble
  rw [hnode]
  cases v.node <;> simp only [Scope.classSet, hchar, h.ignoreCase, h.limit]

/-- A node has the same issues of its own in both scopes. -/
theorem ownIssues_congr (h : k.Agrees nodes k') (hv : nodes v.node) (hcore : v'.core = v.core) :
    v'.ownIssues k' = v.ownIssues k := by
  obtain ⟨opened, site, node⟩ := v
  obtain ⟨opened', site', node'⟩ := v'
  obtain ⟨rfl, rfl⟩ := Prod.mk.injEq .. ▸ hcore
  unfold ownIssues own
  rw [List.map_map, List.map_map]
  cases node' with
  | ref tag name =>
    have hlabel : (k'.labels[name]?).isSome = (k.labels[name]?).isSome := by
      simpa using congrArg Option.isSome (h.label hv)
    simp only [hlabel]
    rfl
  | _ =>
    simp only [Scope.classSet, h.ignoreCase, h.limit]
    rfl

/-- A visit has the same outcome in both scopes. -/
theorem outcome_congr (h : k.Agrees nodes k') (hv : nodes v.node) (hcore : v'.core = v.core) :
    v'.outcome k' = v.outcome k := by
  induction v using (wellFounded_next k).induction generalizing v' with
  | _ v ih =>
    have hlater : (v'.next k').map (outcome k') = (v.next k).map (outcome k) :=
      map_outcome_congr (map_core_next h hv hcore) fun w hw w' hcore' =>
        ih w hw (nodes_of_next h hv hw) hcore'
    rw [outcome_eq, outcome_eq, hlater, ownIssues_congr h hv hcore,
      assemble_congr h (congrArg Prod.snd hcore)]

end Visit

/-- An expression has the same pattern and the same issues, wherever it stands, in two scopes that
hold the same nodes for what it refers to. -/
theorem Regex.resolve_congr {nodes : Regex → Prop} {k k' : Scope} (h : k.Agrees nodes k')
    {r : Regex} (hr : nodes r) (opened : List String) (site site' : Site) :
    (resolve k' opened site' r).1 = (resolve k opened site r).1 ∧
      (resolve k' opened site' r).2.map (·.issue) = (resolve k opened site r).2.map (·.issue) := by
  have hsame : Visit.outcome k' ⟨opened, site', r⟩ = Visit.outcome k ⟨opened, site, r⟩ :=
    Visit.outcome_congr h hr rfl
  exact Prod.mk.injEq .. ▸ hsame

end Lexwright

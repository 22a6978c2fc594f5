import Lexwright.Proofs.Pattern.Visits

/-!
# `Lexwright.Proofs.Pattern.Sturdy`: patterns of expressions in which something is wrong

What is wrong in an expression stands for the empty text, so every expression has a pattern, and
nothing that was reported is left in it. A list of characters may still be empty: no move is made
for it. Every other set of the pattern has a character.

* `Pattern.Sturdy`: well-formed, and each character of a literal can be read.
* `Visit.sturdy_assemble`: a node keeps patterns sturdy. So every expression is resolved to such a
  pattern, whatever is found (`Regex.sturdy_resolve`).
-/

set_option autoImplicit false

namespace Lexwright

/-- The sets of the pattern are normalized sets of characters, those of literals are not empty, and
no repetition has bounds in the wrong order. -/
inductive Pattern.Sturdy : Pattern → Prop where
  | chars {set : Segments} (h : set.Regular) : Sturdy (.chars set)
  | literal {sets : List Segments} (h : ∀ set ∈ sets, set.Regular)
      (hne : ∀ set ∈ sets, ¬set.isEmpty = true) : Sturdy (.literal sets)
  | choice {ps : List Pattern} (h : ∀ p ∈ ps, Sturdy p) : Sturdy (.choice ps)
  | seq {ps : List Pattern} (h : ∀ p ∈ ps, Sturdy p) : Sturdy (.seq ps)
  | repeated {count : Count} {p : Pattern} (hcount : count.Proper) (h : Sturdy p) :
      Sturdy (.repeated count p)

/-- A sturdy pattern is well formed. -/
theorem Pattern.Sturdy.wellFormed {p : Pattern} (h : p.Sturdy) : p.WellFormed := by
  induction h with
  | chars h => exact .chars h
  | literal h _ => exact .literal h
  | choice _ ih => exact .choice ih
  | seq _ ih => exact .seq ih
  | repeated hcount _ ih => exact .repeated hcount ih

/-- The pattern of the empty text is sturdy: it has no sets. -/
theorem Pattern.sturdy_empty : Pattern.empty.Sturdy := .seq fun _ hp => absurd hp List.not_mem_nil

/-- A set that covers something is not empty. -/
theorem Segments.Covers.not_isEmpty {set : Segments} {code : Nat} (h : set.Covers code) :
    ¬set.isEmpty = true := by
  intro hempty
  obtain ⟨seg, hseg, -⟩ := h
  rw [List.isEmpty_iff.1 hempty] at hseg
  exact List.not_mem_nil hseg

/-- A character stands for itself at least. -/
theorem Scope.not_isEmpty_charSet (k : Scope) (c : Char) : ¬(k.charSet c).isEmpty = true :=
  (Scope.covers_charSet.2 (Or.inl rfl : StandsFor k.ignoreCase c c)).not_isEmpty

/-- A node makes a sturdy pattern of sturdy ones: what is reported of it is left out. -/
theorem Visit.sturdy_assemble (k : Scope) (v : Visit) {parts : List Pattern}
    (h : ∀ p ∈ parts, p.Sturdy) : (v.assemble k parts).Sturdy := by
  have hhead : (parts.headD .empty).Sturdy := by
    cases parts with
    | nil => exact Pattern.sturdy_empty
    | cons p parts => exact h p List.mem_cons_self
  obtain ⟨opened, site, node⟩ := v
  unfold assemble
  cases node with
  | chars tag negated ranges => exact .chars (Scope.regular_classSet negated ranges)
  | literal tag text =>
    refine .literal (fun set hset => ?_) fun set hset => ?_
    · obtain ⟨c, _, rfl⟩ := List.mem_map.1 hset
      exact Scope.regular_charSet c
    · obtain ⟨c, _, rfl⟩ := List.mem_map.1 hset
      exact Scope.not_isEmpty_charSet k c
  | choice tag rs => exact .choice h
  | seq tag rs => exact .seq h
  | repeated tag count inner =>
    cases hissue : count.issue? k.limit with
    | some issue =>
      simp only [hissue]
      exact Pattern.sturdy_empty
    | none =>
      simp only [hissue]
      exact .repeated (Count.proper_of_issue? hissue) hhead
  | eof tag => exact Pattern.sturdy_empty
  | ref tag name => exact hhead

/-- Every expression is resolved to a sturdy pattern, whatever is found wrong in it. -/
theorem Regex.sturdy_resolve (k : Scope) (opened : List String) (site : Site) (r : Regex) :
    (resolve k opened site r).1.Sturdy := by
  have hvisit : ∀ v : Visit, (v.result k).1.Sturdy := fun v => by
    induction v using (Visit.wellFounded_next k).induction with
    | _ v ih =>
      rw [Visit.result_eq]
      refine v.sturdy_assemble k fun p hp => ?_
      rw [List.map_map] at hp
      obtain ⟨w, hw, rfl⟩ := List.mem_map.1 hp
      exact ih w hw
  exact hvisit ⟨opened, site, r⟩

end Lexwright

import Mathlib.Logic.Relation
import Lexwright.Proofs.Pattern.Visits

/-!
# `Lexwright.Proofs.Pattern.Inlining`: references replaced by copies

Inlining puts in the place of a reference a copy of the labelled node, and goes on in the copy. No
label is open here, so nothing keeps it from coming to the same node again.

* `Regex.Inlines`: a step of inlining, to a part of a node or to what a reference stands for.
* `Regex.Endless`: some sequence of steps goes on for ever.
* `Regex.inlineWithin`: the expression with copies in the place of its references, given up where
  they are nested to a depth. `Regex.endless_iff` says that it is given up at every depth just where
  the expression is endless.
* `Regex.endless_of_cycle`: an expression whose inlining comes back to it is endless.
-/

set_option autoImplicit false

namespace Lexwright

open Relation

/-- The one node that carries the label. -/
def Lexicon.target? (lexicon : Lexicon) (name : String) : Option Regex :=
  match lexicon.parts.filter fun node => node.tag.label = some name with
  | [r] => some r
  | _ => none

/-- The look-up finds the first expression with the label. -/
theorem Lexicon.target?_eq_some_iff {lexicon : Lexicon} {name : String} {r : Regex} :
    lexicon.target? name = some r ↔ lexicon.Target name r := by
  unfold target? Target
  split
  · rename_i node heq
    rw [heq, Option.some.injEq, List.cons.injEq, and_iff_left rfl]
  · rename_i hother
    exact iff_of_false (fun h => nomatch h) (hother r)

namespace Regex

/-- Inlining goes from a node to the parts that are copied, and from a reference to the node that
carries the label. -/
inductive Inlines (lexicon : Lexicon) (limit : Nat) : Regex → Regex → Prop where
  | part {r part : Regex} (h : part ∈ r.inlined limit) : Inlines lexicon limit r part
  | ref {tag : Tag} {name : String} {r : Regex} (h : lexicon.Target name r) :
    Inlines lexicon limit (.ref tag name) r

/-- Inlining the expression goes on for ever somewhere. -/
def Endless (lexicon : Lexicon) (limit : Nat) (r : Regex) : Prop :=
  ∃ f : Nat → Regex, f 0 = r ∧ ∀ n, Inlines lexicon limit (f n) (f (n + 1))

variable {lexicon : Lexicon} {limit : Nat} {r s : Regex}

/-- A reference inlines what it refers to. -/
theorem inlines_ref_iff {tag : Tag} {name : String} :
    Inlines lexicon limit (.ref tag name) s ↔ lexicon.Target name s := by
  refine ⟨fun h => ?_, .ref⟩
  cases h with
  | part h => exact absurd h List.not_mem_nil
  | ref h => exact h

/-- Any other node inlines its parts, where it has any. -/
theorem inlines_iff_of_ne (hr : ∀ tag name, r ≠ .ref tag name) :
    Inlines lexicon limit r s ↔ s ∈ r.inlined limit := by
  refine ⟨fun h => ?_, .part⟩
  cases h with
  | part h => exact h
  | ref h => exact absurd rfl (hr _ _)

/-- The steps that begin at a node are finitely many. -/
theorem exists_steps (lexicon : Lexicon) (limit : Nat) (r : Regex) :
    ∃ steps : List Regex, ∀ s, Inlines lexicon limit r s ↔ s ∈ steps := by
  cases r with
  | ref tag name =>
    refine ⟨(lexicon.target? name).toList, fun s => ?_⟩
    rw [inlines_ref_iff, Option.mem_toList, Lexicon.target?_eq_some_iff]
  | _ => exact ⟨_, fun s => inlines_iff_of_ne fun _ _ h => nomatch h⟩

/-- Inlining is endless exactly if the expression is not accessible. -/
theorem endless_iff_not_acc :
    r.Endless lexicon limit ↔ ¬Acc (fun s r => Inlines lexicon limit r s) r := by
  rw [not_acc_iff_exists_descending_chain]
  rfl

/-- An endless expression has a step to an endless one. -/
theorem Endless.exists_inlines (h : r.Endless lexicon limit) :
    ∃ s, Inlines lexicon limit r s ∧ s.Endless lexicon limit := by
  obtain ⟨f, rfl, hf⟩ := h
  exact ⟨f 1, hf 0, fun n => f (n + 1), rfl, fun n => hf (n + 1)⟩

/-- What inlines something endless is endless. -/
theorem Endless.of_inlines (hs : Inlines lexicon limit r s) (h : s.Endless lexicon limit) :
    r.Endless lexicon limit := by
  rw [endless_iff_not_acc] at h ⊢
  exact fun hacc => h (hacc.inv hs)

/-- The same over any number of steps. -/
theorem Endless.of_reflTransGen (hs : ReflTransGen (Inlines lexicon limit) r s)
    (h : s.Endless lexicon limit) : r.Endless lexicon limit := by
  induction hs using ReflTransGen.head_induction_on with
  | refl => exact h
  | head hstep _ ih => exact ih.of_inlines hstep

/-- An expression whose inlining comes back to the expression is endless. -/
theorem endless_of_cycle (h : TransGen (Inlines lexicon limit) r r) :
    r.Endless lexicon limit := by
  rw [endless_iff_not_acc]
  intro hacc
  induction hacc with
  | intro r _ ih =>
    -- the next node is on the cycle too
    obtain ⟨s, hrs, hsr⟩ := TransGen.head'_iff.1 h
    exact ih s hrs (TransGen.tail' hsr hrs)

/-! ### The inlined expression -/

/-- The node with other parts in the place of those that are copied. -/
def withParts : Regex → List Regex → Regex
  | choice tag _, parts => choice tag parts
  | seq tag _, parts => seq tag parts
  | repeated tag count inner, parts => repeated tag count (parts.headD inner)
  | r, _ => r

/-- The expression with copies of the labelled nodes in the place of its references, given up where
the nodes are nested to a depth. A reference to no node stays. -/
def inlineWithin (lexicon : Lexicon) (limit : Nat) : Nat → Regex → Option Regex
  | 0, _ => none
  | depth + 1, .ref tag name =>
    match lexicon.target? name with
    | some r => inlineWithin lexicon limit depth r
    | none => some (.ref tag name)
  | depth + 1, r =>
    ((r.inlined limit).mapM (inlineWithin lexicon limit depth)).map r.withParts

/-- All the members of a list have a result exactly if the list has. -/
theorem isSome_mapM {α β : Type} {f : α → Option β} {as : List α} :
    (as.mapM f).isSome = true ↔ ∀ a ∈ as, (f a).isSome = true := by
  induction as with
  | nil => simp
  | cons a as ih =>
    rw [List.forall_mem_cons, ← ih, List.mapM_cons]
    cases f a with
    | none => simp
    | some b => cases as.mapM f <;> simp

/-- Inlining an expression is given up where inlining what some step leads to is. -/
theorem isSome_inlineWithin {depth : Nat} :
    (inlineWithin lexicon limit (depth + 1) r).isSome = true ↔
      ∀ s, Inlines lexicon limit r s → (inlineWithin lexicon limit depth s).isSome = true := by
  have hparts (hr : ∀ tag name, r ≠ .ref tag name) :
      (((r.inlined limit).mapM (inlineWithin lexicon limit depth)).map r.withParts).isSome = true ↔
        ∀ s, Inlines lexicon limit r s → (inlineWithin lexicon limit depth s).isSome = true := by
    rw [Option.isSome_map, isSome_mapM]
    simp only [inlines_iff_of_ne hr]
  cases r with
  | ref tag name =>
    simp only [inlines_ref_iff, ← Lexicon.target?_eq_some_iff]
    rw [inlineWithin]
    cases lexicon.target? name with
    | none => simp
    | some s => simp
  | _ => exact hparts fun _ _ h => nomatch h

/-- Inlining is given up at every depth just where it never ends. -/
theorem endless_iff :
    r.Endless lexicon limit ↔ ∀ depth, inlineWithin lexicon limit depth r = none := by
  constructor
  · intro h depth
    induction depth generalizing r with
    | zero => rfl
    | succ depth ih =>
      obtain ⟨s, hs, hendless⟩ := h.exists_inlines
      have hnone := ih hendless
      rw [← Option.not_isSome_iff_eq_none] at hnone ⊢
      exact fun hsome => hnone (isSome_inlineWithin.1 hsome s hs)
  · rw [endless_iff_not_acc]
    intro h hacc
    -- Only finitely many steps begin at a node, so some depth is enough for what they lead to.
    have hsome : ∃ depth, ∀ deeper, depth ≤ deeper →
        (inlineWithin lexicon limit deeper r).isSome = true := by
      clear h
      induction hacc with
      | intro r _ ih =>
        obtain ⟨steps, hsteps⟩ := exists_steps lexicon limit r
        obtain ⟨depth, hdepth⟩ := exists_depth fun s hs => ih s ((hsteps s).2 hs)
        refine ⟨depth + 1, fun deeper hle => ?_⟩
        obtain ⟨deeper, rfl⟩ : ∃ d, deeper = d + 1 := ⟨deeper - 1, by omega⟩
        exact isSome_inlineWithin.2 fun s hs =>
          hdepth deeper (by omega) s ((hsteps s).1 hs)
    obtain ⟨depth, hdepth⟩ := hsome
    have hfail := hdepth depth (Nat.le_refl _)
    rw [h depth] at hfail
    cases hfail

end Regex

end Lexwright

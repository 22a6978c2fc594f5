import Lexwright.Proofs.Automaton.Choice
import Lexwright.Proofs.Automaton.Repetition

/-!
# `Lexwright.Proofs.Automaton.Thompson`: a fragment reads the texts of its pattern

There is one lemma for each constructor; none of them looks inside the fragments that it is given.

* `Pattern.consecutive_fragments`: the fragments of several patterns lie in consecutive blocks.
* `Pattern.recognizes_fragment`: the fragment of a pattern recognizes its texts.
-/

set_option autoImplicit false

namespace Lexwright

namespace Pattern

/-- Fragments of patterns that recognize their texts lie in consecutive blocks. -/
theorem consecutive_fragments {ps : List Pattern}
    (h : ∀ p ∈ ps, ∀ base, (p.fragment base).Recognizes base p.Matches) (base : Nat) :
    Fragment.Consecutive base (Pattern.fragments ps base) (ps.map Pattern.Matches) := by
  induction ps generalizing base with
  | nil =>
    rw [Pattern.fragments]
    exact .nil base
  | cons p ps ih =>
    rw [Pattern.fragments]
    exact .cons (h p List.mem_cons_self base)
      (ih (fun q hq => h q (List.mem_cons_of_mem _ hq)) _)

/-- Matching any of some patterns is matching one of them. -/
theorem matchesAny_iff {ps : List Pattern} {w : List Char} :
    Pattern.MatchesAny ps w ↔ ∃ p ∈ ps, p.Matches w := by
  induction ps with
  | nil =>
    rw [Pattern.MatchesAny]
    simp
  | cons p ps ih => simp only [Pattern.MatchesAny, ih, List.mem_cons, exists_eq_or_imp]

/-- Matching all of some patterns is a sequence of texts of their languages. -/
theorem inSeq_map_iff {ps : List Pattern} {w : List Char} :
    InSeq id (ps.map Pattern.Matches) w ↔ Pattern.MatchesAll ps w := by
  induction ps generalizing w with
  | nil => simp only [Pattern.MatchesAll, List.map_nil, InSeq]
  | cons p ps ih => simp only [Pattern.MatchesAll, List.map_cons, InSeq, ih, id]

/-- The fragment of a pattern recognizes the texts of the pattern. -/
theorem recognizes_fragment {p : Pattern} (h : p.WellFormed) (base : Nat) :
    (p.fragment base).Recognizes base p.Matches := by
  induction h generalizing base with
  | chars h =>
    refine (Fragment.recognizes_chars h base).congr fun w => ?_
    rw [Pattern.Matches]
  | literal h =>
    refine (Fragment.recognizes_literal h base).congr fun w => ?_
    rw [Pattern.Matches]
  | choice h ih =>
    rw [Pattern.fragment]
    refine (Fragment.recognizes_choice (consecutive_fragments ih (base + 2))).congr fun w => ?_
    rw [Pattern.Matches, matchesAny_iff]
    constructor
    · rintro ⟨L, hL, hw⟩
      obtain ⟨p, hp, rfl⟩ := List.mem_map.1 hL
      exact ⟨p, hp, hw⟩
    · rintro ⟨p, hp, hw⟩
      exact ⟨p.Matches, List.mem_map.2 ⟨p, hp, rfl⟩, hw⟩
  | seq h ih =>
    rw [Pattern.fragment]
    refine (Fragment.recognizes_seq (consecutive_fragments ih base)).congr fun w => ?_
    rw [Pattern.Matches]
    exact inSeq_map_iff
  | repeated hcount h ih =>
    rw [Pattern.fragment]
    refine (Fragment.recognizes_repeated ih hcount base).congr fun w => ?_
    rw [Pattern.Matches]

end Pattern

end Lexwright

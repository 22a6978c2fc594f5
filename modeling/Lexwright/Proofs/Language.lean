import Lexwright.Lexicon
import Lexwright.Regex.Basic
import Lexwright.Proofs.Segments.Cover
import Lexwright.Text.CaseMap

/-!
# `Lexwright.Proofs.Language`: the texts that an expression matches

The classical semantics of regular expressions. A reference matches what the one node with its
label matches; a character of a rule that ignores letter case also stands for its lowercase and
uppercase variants. Nothing here speaks of automata or of resolved references.

* `StandsFor`: a character of the text may be read for a character of the expression.
* `Regex.Matches`: the texts of an expression, for any meaning of the labels.
* `Lexicon.Target`: the node that carries a label, if it is the only one.
* `Rule.Matches`: the texts of a rule of a lexicon.
* `Pattern.Matches`: the texts of a pattern.
* `Pattern.WellFormed`: the sets of the pattern are normalized sets of characters, and no
  repetition has bounds in the wrong order.
-/

set_option autoImplicit false

namespace Lexwright

open Text

/-- A character of the text that may be read for a character of the expression: itself, or where
letter case is ignored one of its variants. -/
def StandsFor (ignoreCase : Bool) (written read : Char) : Prop :=
  read = written ∨ (ignoreCase = true ∧ read.toNat ∈ caseVariants written.toNat)

/-- The character is read for one that the ranges list. -/
def Listed (ignoreCase : Bool) (ranges : List (Char × Char)) (read : Char) : Prop :=
  ∃ range ∈ ranges, ∃ written,
    range.1.toNat ≤ written.toNat ∧ written.toNat ≤ range.2.toNat ∧
      StandsFor ignoreCase written read

/-- The numbers of copies that a repetition stands for. -/
def Count.Allows : Count → Nat → Prop
  | .oneOrMore, n => 1 ≤ n
  | .zeroOrMore, _ => True
  | .zeroOrOne, n => n ≤ 1
  | .range least most, n => least ≤ n ∧ ∀ m, most = some m → n ≤ m

/-- The texts of an expression. `target` says which expression a label stands for. The end of the
input is not a text. -/
inductive Regex.Matches (target : String → Regex → Prop) (ignoreCase : Bool) :
    Regex → List Char → Prop where
  | chars {tag : Tag} {negated : Bool} {ranges : List (Char × Char)} {c : Char}
      (h : Listed ignoreCase ranges c ↔ negated = false) :
      Matches target ignoreCase (.chars tag negated ranges) [c]
  | literal {tag : Tag} {text : String} {w : List Char} (hlength : w.length = text.toList.length)
      (h : ∀ x ∈ text.toList.zip w, StandsFor ignoreCase x.1 x.2) :
      Matches target ignoreCase (.literal tag text) w
  | choice {tag : Tag} {rs : List Regex} {r : Regex} {w : List Char} (hr : r ∈ rs)
      (h : Matches target ignoreCase r w) : Matches target ignoreCase (.choice tag rs) w
  | seq {tag : Tag} {rs : List Regex} {ws : List (List Char)} (hlength : ws.length = rs.length)
      (h : ∀ x ∈ rs.zip ws, Matches target ignoreCase x.1 x.2) :
      Matches target ignoreCase (.seq tag rs) ws.flatten
  | repeated {tag : Tag} {count : Count} {r : Regex} {ws : List (List Char)}
      (hcount : count.Allows ws.length) (h : ∀ w ∈ ws, Matches target ignoreCase r w) :
      Matches target ignoreCase (.repeated tag count r) ws.flatten
  | ref {tag : Tag} {name : String} {r : Regex} {w : List Char} (htarget : target name r)
      (h : Matches target ignoreCase r w) : Matches target ignoreCase (.ref tag name) w

namespace Lexicon

/-- Every node of every expression of the lexicon. -/
def parts (lexicon : Lexicon) : List Regex :=
  lexicon.states.flatMap fun s => s.rules.flatMap fun r => r.regex.preorder

/-- The expression is the one node of the lexicon that carries the label. -/
def Target (lexicon : Lexicon) (name : String) (r : Regex) : Prop :=
  (lexicon.parts.filter fun node => node.tag.label = some name) = [r]

end Lexicon

/-- The texts of a rule. References look for their labels in the whole lexicon, and letter case is
ignored in what they stand for if this rule ignores it. -/
def Rule.Matches (lexicon : Lexicon) (rule : Rule) (w : List Char) : Prop :=
  rule.regex.Matches lexicon.Target rule.ignoreCase w

/-! ### Words one after another -/

section Words

variable {α : Type} {M : α → List Char → Prop} {L : List Char → Prop} {n : Nat}
  {u v w : List Char}

/-- The words that consist of one word for each item. -/
def InSeq (M : α → List Char → Prop) : List α → List Char → Prop
  | [], w => w = []
  | a :: as, w => ∃ u v, w = u ++ v ∧ M a u ∧ InSeq M as v

/-- The words that consist of `n` words of a language. -/
def Times (L : List Char → Prop) : Nat → List Char → Prop
  | 0, w => w = []
  | n + 1, w => ∃ u v, w = u ++ v ∧ L u ∧ Times L n v

/-- A sequence of texts is a text that falls into one text for each item. -/
theorem inSeq_iff {as : List α} :
    InSeq M as w ↔ ∃ ws : List (List Char), w = ws.flatten ∧ ws.length = as.length ∧
      ∀ x ∈ as.zip ws, M x.1 x.2 := by
  -- One word of the list for each item: the two lists are taken apart together.
  induction as generalizing w with
  | nil =>
    constructor
    · intro h
      exact ⟨[], h, rfl, fun x hx => absurd hx (by simp)⟩
    · intro ⟨ws, hw, hlength, _⟩
      rw [List.eq_nil_of_length_eq_zero hlength] at hw
      exact hw
  | cons a as ih =>
    constructor
    · intro ⟨u, v, hw, ha, hv⟩
      obtain ⟨ws, hws, hlength, h⟩ := ih.1 hv
      refine ⟨u :: ws, by rw [hw, hws, List.flatten_cons], by simp [hlength], fun x hx => ?_⟩
      rcases List.mem_cons.1 hx with rfl | hx
      · exact ha
      · exact h x hx
    · intro ⟨ws, hw, hlength, h⟩
      cases ws with
      | nil => cases hlength
      | cons u ws =>
        rw [List.flatten_cons] at hw
        refine ⟨u, ws.flatten, hw, h (a, u) List.mem_cons_self, ih.2 ⟨ws, rfl, ?_, fun x hx => ?_⟩⟩
        · simpa using hlength
        · exact h x (List.mem_cons_of_mem _ hx)

/-- A sequence of the same item is a repetition. -/
theorem inSeq_replicate_iff {a : α} : InSeq M (List.replicate n a) w ↔ Times (M a) n w := by
  induction n generalizing w with
  | zero => exact Iff.rfl
  | succ n ih =>
    constructor
    · intro ⟨u, v, hw, hu, hv⟩
      exact ⟨u, v, hw, hu, ih.1 hv⟩
    · intro ⟨u, v, hw, hu, hv⟩
      exact ⟨u, v, hw, hu, ih.2 hv⟩

/-- A repetition is a text that falls into as many texts of the language. -/
theorem times_iff :
    Times L n w ↔ ∃ ws : List (List Char), w = ws.flatten ∧ ws.length = n ∧ ∀ x ∈ ws, L x := by
  -- Copies of one language are a sequence of the same language.
  refine (@inSeq_replicate_iff _ id n w L).symm.trans (inSeq_iff.trans ?_)
  rw [List.length_replicate]
  refine exists_congr fun ws => and_congr_right fun _ => and_congr_right fun hlength => ?_
  have hfirst : ∀ x ∈ (List.replicate n L).zip ws, x.1 = L := fun x hx =>
    List.eq_of_mem_replicate (List.of_mem_zip hx).1
  have hsecond : ((List.replicate n L).zip ws).map Prod.snd = ws :=
    List.map_snd_zip (Nat.le_of_eq (hlength.trans List.length_replicate.symm))
  constructor
  · intro h v hv
    rw [← hsecond] at hv
    obtain ⟨x, hx, rfl⟩ := List.mem_map.1 hv
    rw [← hfirst x hx]
    exact h x hx
  · intro h x hx
    rw [hfirst x hx]
    exact h x.2 (List.of_mem_zip hx).2

/-- Repetitions are added. -/
theorem times_append {m : Nat} (hu : Times L n u) (hv : Times L m v) :
    Times L (n + m) (u ++ v) := by
  induction n generalizing u with
  | zero =>
    rw [show u = [] from hu, Nat.zero_add]
    exact hv
  | succ n ih =>
    obtain ⟨x, y, rfl, hx, hy⟩ := hu
    rw [Nat.add_right_comm, List.append_assoc]
    exact ⟨x, y ++ v, rfl, hx, ih hy⟩

/-- A repetition falls into two. -/
theorem exists_of_times_add {m : Nat} (h : Times L (n + m) w) :
    ∃ u v, w = u ++ v ∧ Times L n u ∧ Times L m v := by
  induction n generalizing w with
  | zero =>
    rw [Nat.zero_add] at h
    exact ⟨[], w, rfl, rfl, h⟩
  | succ n ih =>
    rw [Nat.add_right_comm] at h
    obtain ⟨x, y, rfl, hx, hy⟩ := h
    obtain ⟨u, v, rfl, hu, hv⟩ := ih hy
    exact ⟨x ++ u, v, by rw [List.append_assoc], ⟨x, u, rfl, hx, hu⟩, hv⟩

end Words

/-! ### What a text of a node consists of -/

namespace Regex

variable {target : String → Regex → Prop} {ignoreCase : Bool} {tag : Tag} {w : List Char}

/-- A character list matches one character, inside or outside its ranges. -/
theorem matches_chars {negated : Bool} {ranges : List (Char × Char)} :
    Matches target ignoreCase (.chars tag negated ranges) w ↔
      ∃ c, w = [c] ∧ (Listed ignoreCase ranges c ↔ negated = false) := by
  constructor
  · intro h
    cases h with
    | chars h => exact ⟨_, rfl, h⟩
  · intro ⟨c, hw, h⟩
    rw [hw]
    exact .chars h

/-- The one character that is listed is a text. -/
theorem matches_char (c : Char) : Matches target ignoreCase (.chars tag false [(c, c)]) [c] :=
  .chars (iff_of_true ⟨_, List.mem_singleton_self _, c, Nat.le_refl _, Nat.le_refl _, .inl rfl⟩ rfl)

/-- A literal matches the texts whose characters stand for its own. -/
theorem matches_literal {text : String} :
    Matches target ignoreCase (.literal tag text) w ↔
      w.length = text.toList.length ∧ ∀ x ∈ text.toList.zip w, StandsFor ignoreCase x.1 x.2 := by
  constructor
  · intro h
    cases h with
    | literal hlength h => exact ⟨hlength, h⟩
  · intro ⟨hlength, h⟩
    exact .literal hlength h

/-- A choice matches what one of its alternatives matches. -/
theorem matches_choice {rs : List Regex} :
    Matches target ignoreCase (.choice tag rs) w ↔
      ∃ r ∈ rs, Matches target ignoreCase r w := by
  constructor
  · intro h
    cases h with
    | choice hr h => exact ⟨_, hr, h⟩
  · intro ⟨r, hr, h⟩
    exact .choice hr h

/-- A sequence matches the texts of its items, one after another. -/
theorem matches_seq {rs : List Regex} :
    Matches target ignoreCase (.seq tag rs) w ↔ InSeq (Matches target ignoreCase) rs w := by
  rw [inSeq_iff]
  constructor
  · intro h
    cases h with
    | seq hlength h => exact ⟨_, rfl, hlength, h⟩
  · intro ⟨ws, hw, hlength, h⟩
    rw [hw]
    exact .seq hlength h

/-- A repetition matches as many texts of its part as the count allows. -/
theorem matches_repeated {count : Count} {r : Regex} :
    Matches target ignoreCase (.repeated tag count r) w ↔
      ∃ n, count.Allows n ∧ Times (Matches target ignoreCase r) n w := by
  simp only [times_iff]
  constructor
  · intro h
    cases h with
    | repeated hcount h => exact ⟨_, hcount, _, rfl, rfl, h⟩
  · intro ⟨n, hcount, ws, hw, hlength, h⟩
    subst hw
    subst hlength
    exact .repeated hcount h

/-- A reference matches what the expression with the label matches. -/
theorem matches_ref {name : String} :
    Matches target ignoreCase (.ref tag name) w ↔
      ∃ r, target name r ∧ Matches target ignoreCase r w := by
  constructor
  · intro h
    cases h with
    | ref htarget h => exact ⟨_, htarget, h⟩
  · intro ⟨r, htarget, h⟩
    exact .ref htarget h

end Regex

/-! ### The texts of a pattern -/

/-- The texts of one character of each set. -/
def InSets : List Segments → List Char → Prop
  | [], w => w = []
  | set :: sets, w => ∃ c v, w = c :: v ∧ set.Covers c.toNat ∧ InSets sets v

mutual

/-- The texts of a pattern. -/
def Pattern.Matches : Pattern → List Char → Prop
  | .chars set, w => ∃ c, w = [c] ∧ set.Covers c.toNat
  | .literal sets, w => InSets sets w
  | .choice ps, w => Pattern.MatchesAny ps w
  | .seq ps, w => Pattern.MatchesAll ps w
  | .repeated count p, w => ∃ n, count.Allows n ∧ Times (fun v => Pattern.Matches p v) n w

/-- The texts of any one of the patterns. -/
def Pattern.MatchesAny : List Pattern → List Char → Prop
  | [], _ => False
  | p :: ps, w => Pattern.Matches p w ∨ Pattern.MatchesAny ps w

/-- The texts of all the patterns, one after another. -/
def Pattern.MatchesAll : List Pattern → List Char → Prop
  | [], w => w = []
  | p :: ps, w => ∃ u v, w = u ++ v ∧ Pattern.Matches p u ∧ Pattern.MatchesAll ps v

end

/-- The largest number of copies, if there is one, is not below the least. -/
def Count.Proper : Count → Prop
  | .range least (some most) => least ≤ most
  | _ => True

/-- A normalized set of characters. -/
structure Segments.Regular (s : Segments) : Prop where
  normal : s.IsNormal
  scalars : s.Scalars

/-- The sets of the pattern are normalized sets of characters, and no repetition has bounds in the
wrong order. -/
inductive Pattern.WellFormed : Pattern → Prop where
  | chars {set : Segments} (h : set.Regular) : WellFormed (.chars set)
  | literal {sets : List Segments} (h : ∀ set ∈ sets, set.Regular) : WellFormed (.literal sets)
  | choice {ps : List Pattern} (h : ∀ p ∈ ps, WellFormed p) : WellFormed (.choice ps)
  | seq {ps : List Pattern} (h : ∀ p ∈ ps, WellFormed p) : WellFormed (.seq ps)
  | repeated {count : Count} {p : Pattern} (hcount : count.Proper) (h : WellFormed p) :
      WellFormed (.repeated count p)

end Lexwright

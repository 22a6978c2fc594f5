import Lexwright.Pattern.Resolve
import Lexwright.Proofs.Language

/-!
# `Lexwright.Proofs.Pattern.Resolve`: resolving keeps the texts of an expression

Resolving replaces characters by sets and references by what they stand for. An expression in
which nothing but empty character lists is found has the texts of its pattern
(`Regex.resolved_resolve`). The proof follows the recursion of `resolve`, which goes through the
labelled expressions too, so a label needs no induction of its own. What is proved by this
recursion where nothing is wrong has `Regex.resolve_induction`, without a case for what is reported.
-/

set_option autoImplicit false

namespace Lexwright

open Text

namespace Scope

variable {k : Scope}

/-! ### The sets of characters -/

/-- The set of a character is normalized and has characters only. -/
theorem regular_charSet (c : Char) : (k.charSet c).Regular := by
  unfold charSet
  split
  · exact ⟨Segments.isNormal_withCaseVariants _, (Segments.scalars_ofChar c).withCaseVariants⟩
  · exact ⟨Segments.isNormal_ofChar c, Segments.scalars_ofChar c⟩

/-- The set of a literal's character covers what may be read for the character. -/
theorem covers_charSet {written read : Char} :
    (k.charSet written).Covers read.toNat ↔ StandsFor k.ignoreCase written read := by
  unfold charSet StandsFor
  by_cases hcase : k.ignoreCase = true
  · simp only [hcase, if_true, true_and, Segments.covers_withCaseVariants, Segments.covers_ofChar,
      exists_eq_left, Char.toNat_inj]
  · simp only [hcase, Bool.false_eq_true, if_false, false_and, or_false, Segments.covers_ofChar,
      Char.toNat_inj]

/-- The codepoints of the ranges, without the surrogate gap. -/
theorem covers_foldl_insertScalars {ranges : List (Char × Char)} {s : Segments} {code : Nat} :
    (ranges.foldl (fun s r => s.insertScalars r.1.toNat r.2.toNat) s).Covers code ↔
      (∃ r ∈ ranges, r.1.toNat ≤ code ∧ code ≤ r.2.toNat ∧
        ¬(gapFirst ≤ code ∧ code ≤ gapLast)) ∨ s.Covers code := by
  induction ranges generalizing s with
  | nil => simp
  | cons r ranges ih =>
    rw [List.foldl_cons, ih, Segments.covers_insertScalars]
    simp only [List.mem_cons, exists_eq_or_imp]
    rw [or_assoc, or_left_comm]

/-- Inserting ranges of characters inserts characters only. -/
theorem scalars_foldl_insertScalars {ranges : List (Char × Char)} {s : Segments}
    (h : s.Scalars) :
    (ranges.foldl (fun s r => s.insertScalars r.1.toNat r.2.toNat) s).Scalars := by
  induction ranges generalizing s with
  | nil => exact h
  | cons r ranges ih => exact ih (h.insertScalars r.1 r.2)

/-- A character lies outside the surrogate gap. -/
theorem not_gap_of_isValidChar {code : Nat} (h : code.isValidChar) :
    ¬(gapFirst ≤ code ∧ code ≤ gapLast) := by
  unfold gapFirst gapLast
  rcases h with h | h <;> omega

/-- The codepoints that are valid are those of characters. -/
theorem isValidChar_iff_exists {code : Nat} : code.isValidChar ↔ ∃ c : Char, c.toNat = code := by
  constructor
  · intro h
    have hchar : charOfCode? code = some (Char.ofNat code) := if_pos h
    exact ⟨_, toNat_of_charOfCode? hchar⟩
  · intro ⟨c, hc⟩
    rw [← hc]
    exact c.valid

/-- The listed characters, before letter case and negation. -/
def listed (ranges : List (Char × Char)) : Segments :=
  Segments.normalize (ranges.foldl (fun s r => s.insertScalars r.1.toNat r.2.toNat) .empty)

/-- A list of ranges is a normalized set of characters. -/
theorem regular_listed (ranges : List (Char × Char)) : (listed ranges).Regular :=
  ⟨Segments.isNormal_normalize _,
    (scalars_foldl_insertScalars Segments.scalars_empty).normalize⟩

/-- A list of ranges covers the characters between the ends of a range. -/
theorem covers_listed {ranges : List (Char × Char)} {c : Char} :
    (listed ranges).Covers c.toNat ↔
      ∃ r ∈ ranges, r.1.toNat ≤ c.toNat ∧ c.toNat ≤ r.2.toNat := by
  have hgap := not_gap_of_isValidChar (show c.toNat.isValidChar from c.valid)
  unfold listed
  rw [Segments.covers_normalize, covers_foldl_insertScalars]
  simp only [hgap, not_false_eq_true, and_true, Segments.not_covers_empty, or_false]

/-- The listed characters with their variants, before negation. -/
def cased (k : Scope) (ranges : List (Char × Char)) : Segments :=
  if k.ignoreCase then (listed ranges).withCaseVariants else listed ranges

/-- With or without letter case, ranges are a normalized set of characters. -/
theorem regular_cased (ranges : List (Char × Char)) : (k.cased ranges).Regular := by
  unfold cased
  split
  · exact ⟨Segments.isNormal_withCaseVariants _, (regular_listed ranges).scalars.withCaseVariants⟩
  · exact regular_listed ranges

/-- Where letter case is ignored, ranges cover the images of their characters too. -/
theorem covers_cased {ranges : List (Char × Char)} {c : Char} :
    (k.cased ranges).Covers c.toNat ↔ Listed k.ignoreCase ranges c := by
  unfold cased Listed StandsFor
  by_cases hcase : k.ignoreCase = true
  · simp only [hcase, if_true, true_and, Segments.covers_withCaseVariants]
    -- A covered codepoint belongs to a character, so its variants are those of a character.
    constructor
    · rintro (hcode | ⟨other, hother, hvariant⟩)
      · obtain ⟨r, hr, hfirst, hlast⟩ := covers_listed.1 hcode
        exact ⟨r, hr, c, hfirst, hlast, Or.inl rfl⟩
      · obtain ⟨d, rfl⟩ := isValidChar_iff_exists.1 ((regular_listed ranges).scalars _ hother)
        obtain ⟨r, hr, hfirst, hlast⟩ := covers_listed.1 hother
        exact ⟨r, hr, d, hfirst, hlast, Or.inr hvariant⟩
    · rintro ⟨r, hr, d, hfirst, hlast, rfl | hvariant⟩
      · exact Or.inl (covers_listed.2 ⟨r, hr, hfirst, hlast⟩)
      · exact Or.inr ⟨d.toNat, covers_listed.2 ⟨r, hr, hfirst, hlast⟩, hvariant⟩
  · simp only [hcase, Bool.false_eq_true, if_false, false_and, or_false, covers_listed]
    constructor
    · intro ⟨r, hr, hfirst, hlast⟩
      exact ⟨r, hr, c, hfirst, hlast, rfl⟩
    · intro ⟨r, hr, d, hfirst, hlast, heq⟩
      rw [heq]
      exact ⟨r, hr, hfirst, hlast⟩

/-- A negated list is the complement of the list. -/
theorem classSet_eq (negated : Bool) (ranges : List (Char × Char)) :
    k.classSet negated ranges =
      if negated then (k.cased ranges).complement else k.cased ranges := rfl

/-- The set of a character list is normalized and has characters only. -/
theorem regular_classSet (negated : Bool) (ranges : List (Char × Char)) :
    (k.classSet negated ranges).Regular := by
  have h := regular_cased (k := k) ranges
  rw [classSet_eq]
  split
  · exact ⟨h.normal.complement, Segments.scalars_complement h.normal h.scalars.bounded⟩
  · exact h

/-- The set of a character list covers the listed characters, or the others if it is negated. -/
theorem covers_classSet {negated : Bool} {ranges : List (Char × Char)} {c : Char} :
    (k.classSet negated ranges).Covers c.toNat ↔
      (Listed k.ignoreCase ranges c ↔ negated = false) := by
  have h := regular_cased (k := k) ranges
  have hvalid : c.toNat.isValidChar := c.valid
  rw [classSet_eq]
  cases negated with
  | false => simp only [Bool.false_eq_true, if_false, iff_true, covers_cased]
  | true =>
    simp only [if_true, reduceCtorEq, iff_false,
      Segments.covers_complement h.normal h.scalars.bounded, hvalid, true_and, covers_cased]

/-- The sets of a literal match the texts whose characters stand for its own. -/
theorem inSets_map_charSet {text w : List Char} :
    InSets (text.map k.charSet) w ↔
      w.length = text.length ∧ ∀ x ∈ text.zip w, StandsFor k.ignoreCase x.1 x.2 := by
  induction text generalizing w with
  | nil =>
    constructor
    · intro h
      rw [show w = [] from h]
      exact ⟨rfl, fun x hx => absurd hx List.not_mem_nil⟩
    · intro ⟨hlength, _⟩
      exact List.eq_nil_of_length_eq_zero hlength
  | cons d text ih =>
    constructor
    · intro ⟨c, v, hw, hcovers, hv⟩
      obtain ⟨hlength, h⟩ := ih.1 hv
      rw [hw]
      refine ⟨by simp [hlength], fun x hx => ?_⟩
      rcases List.mem_cons.1 hx with rfl | hx
      · exact covers_charSet.1 hcovers
      · exact h x hx
    · intro ⟨hlength, h⟩
      cases w with
      | nil => cases hlength
      | cons c v =>
        refine ⟨c, v, rfl, covers_charSet.2 (h (d, c) List.mem_cons_self),
          ih.2 ⟨?_, fun x hx => ?_⟩⟩
        · simpa using hlength
        · exact h x (List.mem_cons_of_mem _ hx)

end Scope

/-! ### The bounds of a repetition -/

/-- A count without an issue is proper. -/
theorem Count.proper_of_issue? {limit : Nat} {count : Count} (h : count.issue? limit = none) :
    count.Proper := by
  unfold Count.issue? at h
  unfold Count.Proper
  split
  · split at h
    · rename_i heq
      cases heq
    · rename_i heq
      cases heq
      split at h
      · cases h
      · omega
    · rename_i hother
      exact absurd rfl (hother _ _)
  · trivial

/-- The issues that the bounds of a repetition can have. -/
theorem Count.forall_issue? {P : Issue → Prop}
    (hinvalid : ∀ least most, P (.invalidRepetition least most))
    (hexcessive : ∀ bound limit, P (.excessiveRepetition bound limit)) {limit : Nat} {count : Count}
    {issue : Issue} (h : count.issue? limit = some issue) : P issue := by
  unfold Count.issue? at h
  split at h
  · split at h <;> cases h
    exact hexcessive _ _
  · split at h
    · cases h
      exact hinvalid _ _
    · split at h <;> cases h
      exact hexcessive _ _
  · cases h

/-- Every issue of a count is an error. -/
theorem Count.isWarning_of_issue? {limit : Nat} {count : Count} {issue : Issue}
    (h : count.issue? limit = some issue) : issue.isWarning = false :=
  Count.forall_issue? (P := fun issue => issue.isWarning = false) (fun _ _ => rfl)
    (fun _ _ => rfl) h

/-- A repetition without a copy allows no copy. -/
theorem Count.allows_of_isNever {count : Count} (hnever : count.isNever = true)
    (hproper : count.Proper) {n : Nat} : count.Allows n ↔ n = 0 := by
  unfold Count.isNever at hnever
  split at hnever
  · rename_i least
    have : least ≤ 0 := hproper
    simp only [Count.Allows, Option.some.injEq, forall_eq']
    omega
  · cases hnever

/-! ### Expressions -/

namespace Regex

/-- Nothing was found that keeps a lexicon from being compiled. -/
def OnlyWarnings (found : List Finding) : Prop := ∀ f ∈ found, f.issue.isWarning = true

/-- There are only warnings in both lists if there are only warnings in each. -/
theorem onlyWarnings_append {found later : List Finding} :
    OnlyWarnings (found ++ later) ↔ OnlyWarnings found ∧ OnlyWarnings later :=
  List.forall_mem_append

/-- A finding that is an error is no warning. -/
theorem not_onlyWarnings {f : Finding} (h : f.issue.isWarning = false) : ¬OnlyWarnings [f] :=
  fun hfound => by
    have := hfound f (List.mem_singleton.2 rfl)
    rw [h] at this
    cases this

/-- What a pattern has to do with the expression that it was made of. -/
def Resolved (target : String → Regex → Prop) (ignoreCase : Bool) (p : Pattern) (r : Regex) :
    Prop :=
  p.WellFormed ∧ ∀ w, p.Matches w ↔ r.Matches target ignoreCase w

/-- The same for several expressions, in order. -/
def ResolvedAll (target : String → Regex → Prop) (ignoreCase : Bool) (ps : List Pattern)
    (rs : List Regex) : Prop :=
  (∀ p ∈ ps, p.WellFormed) ∧
    (∀ w, Pattern.MatchesAny ps w ↔ ∃ r ∈ rs, r.Matches target ignoreCase w) ∧
    (∀ w, Pattern.MatchesAll ps w ↔ InSeq (Matches target ignoreCase) rs w)

variable {k : Scope} {target : String → Regex → Prop}

/-- A reference to a label that is not open is resolved as the labelled expression, with the label
open. -/
theorem resolve_ref_of_some {opened : List String} {site : Site} {tag : Tag} {name : String}
    {node : Labelled} (hopen : ¬(tag.open opened).contains name = true)
    (hnode : k.labels[name]? = some node) :
    resolve k opened site (.ref tag name) =
      resolve k (name :: tag.open opened) node.site node.node := by
  rw [resolve, dif_neg hopen]
  split
  · rename_i node' hnode'
    rw [hnode] at hnode'
    cases hnode'
    rfl
  · rename_i hnone
    rw [hnode] at hnone
    cases hnone

/-- A reference without a target is an error and stands for the empty text. -/
theorem resolve_ref_of_none {opened : List String} {site : Site} {tag : Tag} {name : String}
    (hopen : ¬(tag.open opened).contains name = true) (hnode : k.labels[name]? = none) :
    resolve k opened site (.ref tag name) =
      (.empty, [⟨site, tag.pos, .undefinedReference name⟩]) := by
  rw [resolve, dif_neg hopen]
  split
  · rename_i node hsome
    rw [hnode] at hsome
    cases hsome
  · rfl

/-- Induction on what a pattern is made of, where only warnings are found. A reference is resolved
to its labelled node, which may be larger, so this is not induction on the expression. -/
theorem resolve_induction {P : Regex → Pattern → Prop} {Q : List Regex → List Pattern → Prop}
    (chars : ∀ tag negated ranges, (∀ issue ∈ invalidRanges ranges, issue.isWarning = true) →
      P (.chars tag negated ranges) (.chars (k.classSet negated ranges)))
    (literal : ∀ tag text, P (.literal tag text) (.literal (text.toList.map k.charSet)))
    (choice : ∀ tag rs ps, Q rs ps → P (.choice tag rs) (.choice ps))
    (seq : ∀ tag rs ps, Q rs ps → P (.seq tag rs) (.seq ps))
    (never : ∀ tag count r, count.issue? k.limit = none → count.isNever = true →
      P (.repeated tag count r) (.repeated count .empty))
    (repeated : ∀ tag count r p, count.issue? k.limit = none → count.isNever = false → P r p →
      P (.repeated tag count r) (.repeated count p))
    (ref : ∀ tag name n p, k.labels[name]? = some n → P n.node p → P (.ref tag name) p)
    (nil : Q [] [])
    (cons : ∀ r rs p ps, P r p → Q rs ps → Q (r :: rs) (p :: ps))
    {opened : List String} {site : Site} {r : Regex}
    (hfound : OnlyWarnings (resolve k opened site r).2) : P r (resolve k opened site r).1 := by
  revert hfound
  refine resolve.induct k
    (fun opened site r => OnlyWarnings (resolve k opened site r).2 →
      P r (resolve k opened site r).1)
    (fun opened site i rs => OnlyWarnings (resolveAll k opened site i rs).2 →
      Q rs (resolveAll k opened site i rs).1)
    ?chars ?literal ?choice ?seq ?reported ?never ?repeated ?eof ?opened ?ref ?unknown ?nil ?cons
    opened site r
  case chars =>
    intro opened site tag negated ranges hfound
    rw [resolve] at hfound ⊢
    exact chars _ _ _ fun issue hissue =>
      hfound _ (List.mem_map_of_mem (List.mem_append_left _ hissue))
  case literal =>
    intro opened site tag text _
    rw [resolve]
    exact literal _ _
  case choice =>
    intro opened site tag rs ps found heq ih hfound
    rw [resolve] at hfound ⊢
    exact choice _ _ _ (ih hfound)
  case seq =>
    intro opened site tag rs ps found heq ih hfound
    rw [resolve] at hfound ⊢
    exact seq _ _ _ (ih hfound)
  -- The bounds of a repetition are reported.
  case reported =>
    intro opened site tag count inner issue hissue hfound
    rw [resolve, hissue] at hfound
    exact absurd hfound (not_onlyWarnings (Count.isWarning_of_issue? hissue))
  case never =>
    intro opened site tag count inner hissue hnever _
    rw [resolve, hissue]
    simp only [hnever, if_true]
    exact never _ _ _ hissue hnever
  case repeated =>
    intro opened site tag count inner hissue hnever p found heq ih hfound
    rw [resolve, hissue] at hfound ⊢
    simp only [hnever, Bool.false_eq_true, if_false] at hfound ⊢
    exact repeated _ _ _ _ hissue (Bool.eq_false_iff.2 hnever) (ih hfound)
  case eof =>
    intro opened site tag hfound
    rw [resolve] at hfound
    exact absurd hfound (not_onlyWarnings rfl)
  -- The label of a reference is open.
  case opened =>
    intro opened site tag name hopen hfound
    rw [resolve, dif_pos hopen] at hfound
    exact absurd hfound (not_onlyWarnings rfl)
  case ref =>
    intro opened site tag name hopen n hn _ ih hfound
    rw [resolve_ref_of_some hopen hn] at hfound ⊢
    exact ref _ _ _ _ hn (ih hfound)
  -- No node has the label of a reference.
  case unknown =>
    intro opened site tag name hopen hnone hfound
    rw [resolve_ref_of_none hopen hnone] at hfound
    exact absurd hfound (not_onlyWarnings rfl)
  case nil =>
    intro opened site i _
    rw [resolveAll]
    exact nil
  case cons =>
    intro opened site i r rest p found heq ps found' heq' ih ih' hfound
    rw [resolveAll] at hfound ⊢
    obtain ⟨hfirst, hrest⟩ := onlyWarnings_append.1 hfound
    exact cons _ _ _ _ (ih hfirst) (ih' hrest)

/-- An expression in which nothing is wrong has the texts of its pattern, if the labels say what
the references stand for. -/
theorem resolved_resolve
    (htarget : ∀ name r, target name r ↔ ∃ n, k.labels[name]? = some n ∧ n.node = r)
    (opened : List String) (site : Site) (r : Regex)
    (hfound : OnlyWarnings (resolve k opened site r).2) :
    Resolved target k.ignoreCase (resolve k opened site r).1 r := by
  refine resolve_induction (P := fun r p => Resolved target k.ignoreCase p r)
    (Q := fun rs ps => ResolvedAll target k.ignoreCase ps rs)
    ?chars ?literal ?choice ?seq ?never ?repeated ?ref ?nil ?cons hfound
  case chars =>
    intro tag negated ranges _
    refine ⟨.chars (Scope.regular_classSet negated ranges), fun w => ?_⟩
    simp only [Pattern.Matches, matches_chars, Scope.covers_classSet]
  case literal =>
    intro tag text
    refine ⟨.literal fun set hset => ?_, fun w => ?_⟩
    · obtain ⟨c, _, rfl⟩ := List.mem_map.1 hset
      exact Scope.regular_charSet c
    · simp only [Pattern.Matches, matches_literal, Scope.inSets_map_charSet]
  case choice =>
    intro tag rs ps ⟨hformed, hany, _⟩
    refine ⟨.choice hformed, fun w => ?_⟩
    simp only [Pattern.Matches, matches_choice, hany]
  case seq =>
    intro tag rs ps ⟨hformed, _, hall⟩
    refine ⟨.seq hformed, fun w => ?_⟩
    simp only [Pattern.Matches, matches_seq, hall]
  case never =>
    intro tag count r hissue hnever
    have hproper := Count.proper_of_issue? hissue
    refine ⟨.repeated hproper (.seq fun p hp => absurd hp List.not_mem_nil), fun w => ?_⟩
    -- Without a copy only the empty text is matched, whatever the expression inside is.
    simp only [Pattern.Matches, matches_repeated, Count.allows_of_isNever hnever hproper,
      exists_eq_left, Times]
  case repeated =>
    intro tag count r p hissue _ ⟨hformed, hmatches⟩
    refine ⟨.repeated (Count.proper_of_issue? hissue) hformed, fun w => ?_⟩
    have hsame : (fun v => p.Matches v) = r.Matches target k.ignoreCase :=
      funext fun v => propext (hmatches v)
    rw [Pattern.Matches, matches_repeated, hsame]
  case ref =>
    intro tag name n p hn ⟨hformed, hmatches⟩
    refine ⟨hformed, fun w => ?_⟩
    rw [hmatches, matches_ref]
    constructor
    · intro hw
      exact ⟨n.node, (htarget name _).2 ⟨n, hn, rfl⟩, hw⟩
    · intro ⟨r, hr, hw⟩
      obtain ⟨n', hn', rfl⟩ := (htarget name r).1 hr
      rw [hn] at hn'
      cases hn'
      exact hw
  case nil =>
    refine ⟨fun p hp => absurd hp List.not_mem_nil, fun w => ?_, fun w => ?_⟩
    · simp [Pattern.MatchesAny]
    · simp only [Pattern.MatchesAll, InSeq]
  case cons =>
    intro r rs p ps ⟨hformed, hmatches⟩ ⟨hformedAll, hany, hall⟩
    refine ⟨List.forall_mem_cons.2 ⟨hformed, hformedAll⟩, fun w => ?_, fun w => ?_⟩
    · simp only [Pattern.MatchesAny, hmatches, hany, List.mem_cons, exists_eq_or_imp]
    · simp only [Pattern.MatchesAll, InSeq, hmatches, hall]

end Regex

end Lexwright

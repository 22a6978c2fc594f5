import Lexwright.Proofs.Automaton.Implements
import Lexwright.Proofs.Emit.Reader
import Lexwright.Proofs.Interner

/-!
# `Lexwright.Proofs.Emit.Names`: names and written forms are one line

A comment ends with its line, so a name with a line break would spill into the code. Characters are
escaped where an expression or a class is written out, and a line break stands there as `\n`. Only
labels, references and the names of lexical states are copied as they are: where these have no line
break (`Lexicon.Unbroken`), no comment has one.
-/

set_option autoImplicit false

namespace Lexwright

open Text Source

variable {lexicon : Lexicon} {a : Automaton}

/-! ### Texts -/

/-- Texts without line breaks have none when they are joined. -/
theorem oneLine_join {texts : List String} (h : ∀ text ∈ texts, OneLine text) :
    OneLine (String.join texts) := by
  rw [OneLine, String.toList_join]
  intro hbreak
  obtain ⟨text, htext, hmem⟩ := List.mem_flatMap.1 hbreak
  exact h text htext hmem

/-- What texts have in common that can be put together is had by all of them with something
between. -/
theorem intercalate_of_append {P : String → Prop} (hempty : P "")
    (happend : ∀ {s t : String}, P s → P t → P (s ++ t)) {separator : String}
    (hseparator : P separator) {texts : List String} (h : ∀ text ∈ texts, P text) :
    P (String.intercalate separator texts) := by
  induction texts with
  | nil => exact hempty
  | cons text texts ih =>
    have htext := h text List.mem_cons_self
    cases texts with
    | nil =>
      rw [String.intercalate_singleton]
      exact htext
    | cons text' texts =>
      rw [String.intercalate_cons_cons]
      exact happend (happend htext hseparator) (ih fun t ht => h t (List.mem_cons_of_mem _ ht))

/-- Texts without line breaks have none when a separator without one joins them. -/
theorem oneLine_intercalate {separator : String} (hseparator : OneLine separator)
    {texts : List String} (h : ∀ text ∈ texts, OneLine text) :
    OneLine (String.intercalate separator texts) :=
  intercalate_of_append List.not_mem_nil OneLine.append hseparator h

/-- Digits are no line breaks. -/
theorem oneLine_digits {base : Nat} (hlow : 1 < base) (hhigh : base ≤ 16) (n : Nat) :
    '\n' ∉ Nat.toDigits base n := by
  intro h
  obtain ⟨d, hd, hdigit⟩ := exists_of_mem_toDigits hlow hhigh h
  revert d
  decide

/-- A number has no line break. -/
theorem oneLine_toString (n : Nat) : OneLine (toString n) := by
  have h : '\n' ∉ Nat.toDigits 10 n := oneLine_digits (by decide) (by decide) n
  rw [← Nat.toList_repr] at h
  exact h

/-! ### Characters and classes -/

/-- A codepoint that is written by its number has no line break. -/
theorem oneLine_escapeCode (code : Nat) : OneLine (escapeCode code) := by
  refine (OneLine.append (by decide) ?_).append (by decide)
  rw [OneLine, hex, String.toList_ofList]
  exact oneLine_digits (by decide) (by decide) code

/-- A line break is written with a backslash. -/
theorem oneLine_escapeChar (c : Char) : OneLine (escapeChar c) := by
  unfold escapeChar
  split
  all_goals try decide
  rename_i hbreak _ _ _ _
  split
  · decide
  · split
    · exact oneLine_escapeCode _
    · rw [OneLine, show c.toString = String.singleton c from rfl, String.toList_singleton,
        List.mem_singleton]
      exact Ne.symm hbreak

/-- A quoted codepoint has no line break: the escape covers it. -/
theorem oneLine_quoteCode (code : Nat) : OneLine (quoteCode code) := by
  refine (OneLine.append (by decide) ?_).append (by decide)
  split
  · exact oneLine_escapeChar _
  · exact oneLine_escapeCode _

/-- Segments are written on one line. -/
theorem oneLine_segments (s : Segments) : OneLine s.display := by
  refine oneLine_intercalate (by decide) fun text htext => ?_
  obtain ⟨seg, -, rfl⟩ := List.mem_map.1 htext
  unfold Seg.display
  split
  · exact oneLine_quoteCode _
  · exact ((oneLine_quoteCode _).append (by decide)).append (oneLine_quoteCode _)

/-- A set of states is written on one line. -/
theorem oneLine_stateSet (s : StateSet) : OneLine s.display := by
  refine (OneLine.append (by decide) ?_).append (by decide)
  refine oneLine_intercalate (by decide) fun text htext => ?_
  obtain ⟨q, -, rfl⟩ := List.mem_map.1 htext
  exact oneLine_toString q

/-! ### Expressions -/

namespace Regex

/-- The texts of a node that are copied as they are: its label, and the label that it refers to. -/
def verbatim : Regex → List String
  | ref t name => name :: t.label.toList
  | node => node.tag.label.toList

/-- No text of the node that is copied has a line break. -/
def Unbroken (node : Regex) : Prop := ∀ text ∈ node.verbatim, OneLine text

instance (node : Regex) : Decidable node.Unbroken := inferInstanceAs (Decidable (∀ text ∈ _, _))

/-- The label of a node without line breaks has none. -/
theorem Unbroken.label {node : Regex} (h : node.Unbroken) (label : String)
    (hlabel : node.tag.label = some label) : OneLine label := by
  have hmem : label ∈ node.tag.label.toList := by
    rw [hlabel]
    exact List.mem_singleton_self _
  cases node with
  | ref t name => exact h label (List.mem_cons_of_mem _ hmem)
  | _ => exact h label hmem

end Regex

/-- A quoted character has no line break: the escape covers it. -/
theorem oneLine_quoteChar (c : Char) : OneLine (quoteChar c) :=
  (OneLine.append (by decide) (oneLine_escapeChar c)).append (by decide)

/-- A range of characters is written on one line. -/
theorem oneLine_quoteRange (range : Char × Char) : OneLine (quoteRange range) := by
  unfold quoteRange
  split
  · exact oneLine_quoteChar _
  · exact ((oneLine_quoteChar _).append (by decide)).append (oneLine_quoteChar _)

/-- The count of a repetition is written on one line. -/
theorem oneLine_count (count : Count) : OneLine count.display := by
  unfold Count.display
  split
  · decide
  · decide
  · decide
  · exact (OneLine.append (by decide) (oneLine_toString _)).append (by decide)
  · have hleast := fun n => OneLine.append (s := "\x7b") (by decide) (oneLine_toString n)
    split
    · exact (hleast _).append (by decide)
    · exact (((hleast _).append (by decide)).append (oneLine_toString _)).append (by decide)

/-- A label without line breaks adds none. -/
theorem oneLine_enclose {tag : Tag} {body : String}
    (htag : ∀ label, tag.label = some label → OneLine label) (hbody : OneLine body) :
    OneLine (tag.enclose body) := by
  unfold Tag.enclose
  split
  · rename_i label hlabel
    have hmark : OneLine (if tag.hidden then "#" else "") := by split <;> decide
    exact ((((OneLine.append (by decide) hmark).append (htag label hlabel)).append
      (by decide)).append hbody).append (by decide)
  · exact hbody

namespace Regex

/-- A node is one of its own nodes. -/
theorem mem_preorder (r : Regex) : r ∈ r.preorder := by
  rw [preorder_eq]
  exact List.mem_cons_self

mutual

/-- An expression is written on one line if its labels and references are. -/
theorem oneLine_display : ∀ r : Regex, (∀ node ∈ r.preorder, node.Unbroken) → OneLine r.display
  | chars t negated ranges, h => by
    -- Only labels and references are shown unescaped, and these have no line break.
    have hmark : OneLine (if negated then "~" else "") := by split <;> decide
    rw [display]
    refine oneLine_enclose (h _ (mem_preorder _)).label
      (((hmark.append (by decide)).append (oneLine_intercalate (by decide) ?_)).append (by decide))
    intro text htext
    obtain ⟨range, -, rfl⟩ := List.mem_map.1 htext
    exact oneLine_quoteRange range
  | literal t text, h => by
    rw [display]
    refine oneLine_enclose (h _ (mem_preorder _)).label
      ((OneLine.append (by decide) (oneLine_join ?_)).append (by decide))
    intro shown hshown
    obtain ⟨c, -, rfl⟩ := List.mem_map.1 hshown
    exact oneLine_escapeChar c
  | choice t rs, h => by
    rw [display]
    refine oneLine_enclose (h _ (mem_preorder _)).label
      ((OneLine.append (by decide) (oneLine_intercalate (by decide) ?_)).append (by decide))
    exact oneLine_displayAll rs fun node hnode => h node (List.mem_cons_of_mem _ hnode)
  | seq t rs, h => by
    rw [display]
    refine oneLine_enclose (h _ (mem_preorder _)).label
      ((OneLine.append (by decide) (oneLine_intercalate (by decide) ?_)).append (by decide))
    exact oneLine_displayAll rs fun node hnode => h node (List.mem_cons_of_mem _ hnode)
  | repeated t count r, h => by
    rw [display]
    refine oneLine_enclose (h _ (mem_preorder _)).label
      (((OneLine.append (by decide) ?_).append (by decide)).append (oneLine_count count))
    exact oneLine_display r fun node hnode => h node (List.mem_cons_of_mem _ hnode)
  | eof t, h => by
    rw [display]
    exact oneLine_enclose (h _ (mem_preorder _)).label (by decide)
  | ref t name, h => by
    have hself := h _ (mem_preorder _)
    rw [display]
    exact oneLine_enclose hself.label
      ((OneLine.append (by decide) (hself name List.mem_cons_self)).append (by decide))

/-- Expressions without line breaks are written on one line each. The recursion is that of the
expressions. -/
theorem oneLine_displayAll : ∀ rs : List Regex, (∀ node ∈ preorderAll rs, node.Unbroken) →
    ∀ text ∈ displayAll rs, OneLine text
  | [], _, text, htext => absurd htext List.not_mem_nil
  | r :: rs, h, text, htext => by
    rcases List.mem_cons.1 htext with rfl | htext
    · exact oneLine_display r fun node hnode => h node (List.mem_append_left _ hnode)
    · exact oneLine_displayAll rs (fun node hnode => h node (List.mem_append_right _ hnode)) text
        htext

end

end Regex

/-! ### Lexicons -/

/-- No label, no reference and no name of a lexical state has a line break. -/
structure Lexicon.Unbroken (lexicon : Lexicon) : Prop where
  state : ∀ state ∈ lexicon.states, OneLine state.name
  node : ∀ node ∈ lexicon.parts, node.Unbroken

/-- The name of a rule without line breaks has none. -/
theorem oneLine_rule (h : lexicon.Unbroken) {state : LexState} (hstate : state ∈ lexicon.states)
    {rule : Rule} (hrule : rule ∈ state.rules) : OneLine rule.name := by
  have hparts : ∀ node ∈ rule.regex.preorder, node.Unbroken := fun node hnode =>
    h.node node (List.mem_flatMap.2 ⟨state, hstate, List.mem_flatMap.2 ⟨rule, hrule, hnode⟩⟩)
  unfold Rule.name
  cases hlabel : rule.regex.tag.label with
  | none => exact Regex.oneLine_display rule.regex hparts
  | some label => exact (hparts _ (Regex.mem_preorder _)).label label hlabel

namespace Automaton

/-- The names of the rules are those of the lexicon, so they have no line break either. -/
theorem oneLine_rules (himplements : a.Implements lexicon) (h : lexicon.Unbroken) :
    ∀ name ∈ (a.rules.map (·.name)).toList, OneLine name := by
  intro name hname
  rw [Array.mem_toList_iff] at hname
  obtain ⟨info, hinfo, rfl⟩ := Array.mem_map.1 hname
  obtain ⟨id, hid⟩ := Array.getElem?_of_mem hinfo
  have hlt : id < lexicon.numbered.length := by
    rw [← himplements.ruleCount]
    exact (Array.getElem?_eq_some_iff.1 hid).1
  have hnumbered := List.getElem?_eq_getElem hlt
  obtain ⟨j, state, hstate, hrule, -⟩ := Lexicon.exists_of_numbered hnumbered
  rw [(himplements.shown hnumbered hid hstate).1]
  exact oneLine_rule h (List.mem_of_getElem? hstate) (List.mem_of_getElem? hrule)

/-- So are the names of the lexical states. -/
theorem oneLine_lexStates (himplements : a.Implements lexicon) (h : lexicon.Unbroken) :
    ∀ name ∈ (a.lexStates.map (·.name)).toList, OneLine name := by
  intro name hname
  rw [Array.mem_toList_iff] at hname
  obtain ⟨info, hinfo, rfl⟩ := Array.mem_map.1 hname
  obtain ⟨i, hi⟩ := Array.getElem?_of_mem hinfo
  obtain ⟨state, hstate, hsame, -⟩ := himplements.state hi
  rw [hsame]
  exact h.state state (List.mem_of_getElem? hstate)

end Automaton

/-! ### Classes -/

/-- The number of a class is one that there is, and then there is no new class, or the next
number. -/
theorem ClassCompiler.internClass_known_or_new (k : ClassCompiler) (s : Segments) :
    ((k.internClass s).1.classes = k.classes ∧ (k.internClass s).2 < k.classes.size) ∨
      ((k.internClass s).1.classes.size = k.classes.size + 1 ∧
        (k.internClass s).2 = k.classes.size) := by
  have hclasses : (k.compile s).1.classes = k.classes := by
    unfold compile
    split <;> rfl
  have h := (k.compile s).1.classes.intern_known_or_new (k.compile s).2
  rw [← hclasses]
  exact h

namespace ClassPool

variable {pool : ClassPool}

/-- Every class has a name, the written form of a set. -/
structure Named (pool : ClassPool) : Prop where
  size : pool.names.size = pool.compiler.classes.size
  oneLine : ∀ name ∈ pool.names.toList, OneLine name

/-- A new class gets a name without line breaks. -/
theorem named_add (h : pool.Named) (set : Segments) : (pool.add set).Named := by
  have hnames : (pool.add set).names =
      if (pool.compiler.internClass set).2 = pool.names.size then pool.names.push set.display
      else pool.names := rfl
  rcases pool.compiler.internClass_known_or_new set with ⟨hsame, hlt⟩ | ⟨hsize, hid⟩
  · -- the class has a name already
    rw [h.size, if_neg (Nat.ne_of_lt hlt)] at hnames
    refine ⟨?_, by rw [hnames]; exact h.oneLine⟩
    rw [hnames, h.size]
    exact congrArg Interner.size hsame.symm
  · rw [h.size, if_pos hid] at hnames
    refine ⟨?_, fun name hname => ?_⟩
    · rw [hnames, Array.size_push, h.size]
      exact hsize.symm
    · rw [hnames, Array.mem_toList_iff, Array.mem_push] at hname
      rcases hname with hname | rfl
      · exact h.oneLine name (Array.mem_toList_iff.2 hname)
      · exact oneLine_segments set

/-- Classes get their names as their sets are added. -/
theorem named_foldl (sets : List Segments) (h : pool.Named) : (sets.foldl add pool).Named := by
  induction sets generalizing pool with
  | nil => exact h
  | cons set sets ih => exact ih (named_add h set)

end ClassPool

end Lexwright

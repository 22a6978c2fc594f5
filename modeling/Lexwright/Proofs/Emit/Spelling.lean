import Lexwright.Proofs.Emit.Reader

/-!
# `Lexwright.Proofs.Emit.Spelling`: every printed element is read as what it was printed from

A text spells a value when a reader finds the value in it, whatever follows (`Spells`). Texts that
spell are put together like the readers that read them (`Spells.bind`), so each kind of element is
proved by going through its parts in the order in which they are printed.
-/

set_option autoImplicit false

namespace Lexwright.Source

open Text

variable {α β : Type} {reader : Reader α} {next : α → Reader β} {a : α} {b : β}
  {d d' d'' : Nat} {s t : String}

/-- The reader finds the value in the text, whatever follows. The brackets of the text lead from
`depth` open ones to `depth'`, and it has no comment. -/
structure Spells (reader : Reader α) (text : String) (a : α) (depth depth' : Nat) : Prop where
  reads : ∀ rest, reader (lexemes text.toList ++ rest) = some (a, rest)
  depth : (lexemes text.toList).foldlM Lexeme.depth? depth = some depth'
  plain : Plain text

/-- A fixed text that no word runs out of, and how it changes the number of open brackets. -/
def Opens (text : String) (depth depth' : Nat) : Prop :=
  (lexemes text.toList).foldlM Lexeme.depth? depth = some depth' ∧ Plain text ∧
    endsApart text.toList = true

instance (text : String) (depth depth' : Nat) : Decidable (Opens text depth depth') :=
  inferInstanceAs (Decidable (_ ∧ _ ∧ _))

/-- A fixed text that no word runs into or out of. -/
def Separates (text : String) (depth depth' : Nat) : Prop :=
  Opens text depth depth' ∧ text.toList ≠ [] ∧ startsApart text.toList = true

instance (text : String) (depth depth' : Nat) : Decidable (Separates text depth depth') :=
  inferInstanceAs (Decidable (_ ∧ _ ∧ _))

/-- An expected text is found where it stands. -/
theorem expect_append (text : String) (rest : List Lexeme) :
    expect text (lexemes text.toList ++ rest) = some ((), rest) := by
  unfold expect
  rw [if_pos (List.isPrefixOf_iff_prefix.2 (List.prefix_append _ _)), List.drop_left]

/-- An expected text spells nothing but itself. -/
theorem spells_expect (hdepth : (lexemes s.toList).foldlM Lexeme.depth? d = some d')
    (hplain : Plain s) : Spells (expect s) s () d d' where
  reads := expect_append s
  depth := hdepth
  plain := hplain

/-- Behind a value, the next reader reads on. -/
theorem bind_of_some {input rest : List Lexeme} (h : reader input = some (a, rest)) :
    (reader >>= next) input = next a rest := by
  show (reader input).bind (fun x => next x.1 x.2) = _
  rw [h]
  rfl

namespace Spells

/-- Two texts one after the other, if they may be cut apart. -/
theorem bind (h : Spells reader s a d d') (h' : Spells (next a) t b d' d'')
    (hcut : endsApart s.toList = true ∨ startsApart t.toList = true) :
    Spells (reader >>= next) (s ++ t) b d d'' where
  reads rest := by
    rw [String.toList_append, lexemes_append hcut, List.append_assoc, bind_of_some (h.reads _)]
    exact h'.reads rest
  depth := by
    rw [String.toList_append, lexemes_append hcut, List.foldlM_append, h.depth]
    exact h'.depth
  plain := h.plain.append h'.plain

/-- What is read may be changed behind the text. -/
theorem map (h : Spells reader s a d d') (f : α → β) :
    Spells (reader >>= fun a => pure (f a)) s (f a) d d' where
  reads rest := by
    rw [bind_of_some (h.reads rest)]
    rfl
  depth := h.depth
  plain := h.plain

/-- A fixed text in front. -/
theorem behind {text : String} (htext : Opens text d d') (h : Spells reader s a d' d'') :
    Spells (do expect text; reader) (text ++ s) a d d'' :=
  (spells_expect htext.1 htext.2.1).bind h (Or.inl htext.2.2)

/-- A fixed text between two others. -/
theorem between {text : String} {e e' : Nat} (h : Spells reader s a d d')
    (htext : Separates text d' e) (h' : Spells (next a) t b e e') :
    Spells (do let a ← reader; expect text; next a) (s ++ (text ++ t)) b d e' := by
  refine h.bind (h'.behind htext.1) (Or.inr ?_)
  rw [String.toList_append]
  exact startsApart_append htext.2.2 htext.2.1

/-- A fixed text at the end. -/
theorem before {text : String} (h : Spells reader s a d d') (htext : Separates text d' d'')
    (f : α → β) : Spells (do let a ← reader; expect text; return f a) (s ++ text) (f a) d d'' :=
  h.bind ((spells_expect htext.1.1 htext.1.2.1).map fun _ => f a) (Or.inr htext.2.2)

end Spells

/-- A word that is read as a whole. -/
theorem spells_word {text : String} (hword : IsWord text.toList)
    (hkeyword : Lexeme.word text.toList ≠ keyword) {read : List Char → Reader α}
    (hread : ∀ rest, read text.toList rest = some (a, rest)) :
    Spells (word >>= read) text a d d where
  reads rest := by
    rw [lexemes_of_isWord hword]
    exact hread rest
  depth := by
    rw [lexemes_of_isWord hword, List.foldlM_cons, Lexeme.depth?, if_neg hkeyword]
    rfl
  plain := hword.plain

/-! ### Numbers -/

/-- A number is spelled by its digits. -/
theorem spells_number (n : Nat) : Spells number (toString n) n d d := by
  have hdigits : (toString n).toList = Nat.toDigits 10 n := Nat.toList_repr
  have hmem : ∀ c ∈ Nat.toDigits 10 n, ∃ i < 16, c = i.digitChar := fun c =>
    exists_of_mem_toDigits (by decide) (by decide)
  refine spells_word ?_ ?_ fun rest => ?_
  · rw [hdigits]
    refine ⟨Nat.toDigits_ne_nil, fun c hc => ?_⟩
    obtain ⟨i, hi, rfl⟩ := hmem c hc
    exact isWordChar_digitChar i hi
  · -- the keyword has letters that are no digits
    rw [hdigits, keyword]
    intro h
    obtain ⟨i, hi, hdigit⟩ := hmem 's' (by rw [Lexeme.word.inj h]; decide)
    revert i
    decide
  · show (value? 10 0 (toString n).toList).bind _ = _
    rw [hdigits, value?_toDigits (by decide) (by decide)]
    rfl

/-- A word is spelled by its sixteen hexadecimal digits. -/
theorem spells_bits64 (w : BitVec 64) : Spells bits64 ("0x" ++ hexWord w) w d d := by
  have hdigits : ("0x" ++ hexWord w).toList = '0' :: 'x' ::
      (List.replicate (16 - (Nat.toDigits 16 w.toNat).length) '0' ++ Nat.toDigits 16 w.toNat) := by
    rw [String.toList_append, hexWord, hexPadded, String.toList_ofList]
    show ['0', 'x'] ++ _ = _
    simp
  refine spells_word ?_ ?_ fun rest => ?_
  · rw [hdigits]
    refine ⟨List.cons_ne_nil _ _, fun c hc => ?_⟩
    rw [List.mem_cons, List.mem_cons, List.mem_append] at hc
    rcases hc with rfl | rfl | hc | hc
    · rfl
    · rfl
    · rw [List.eq_of_mem_replicate hc]
      rfl
    · obtain ⟨i, hi, rfl⟩ := exists_of_mem_toDigits (by decide) (by decide) hc
      exact isWordChar_digitChar i hi
  · rw [hdigits, keyword]
    intro h
    exact absurd (List.cons.inj (Lexeme.word.inj h)).1 (by decide)
  · rw [hdigits]
    show ((value? 16 0 _).bind _).bind _ = _
    rw [value?_zeros (by decide), value?_toDigits (by decide) (by decide), Option.bind_some]
    show some (BitVec.ofNat 64 w.toNat, rest) = _
    rw [BitVec.ofNat_toNat, BitVec.setWidth_eq]

/-! ### Options and categories -/

/-- The second reader is not asked when the first one reads something. -/
theorem orElse_of_some {first second : Reader α} {input rest : List Lexeme}
    (h : first input = some (a, rest)) : (first <|> second) input = some (a, rest) := by
  show (first input <|> second input) = _
  rw [h]
  rfl

/-- The second reader is asked when the first one reads nothing. -/
theorem orElse_of_none {first second : Reader α} {input : List Lexeme}
    (h : first input = none) : (first <|> second) input = second input := by
  show (first input <|> second input) = _
  rw [h]
  rfl

/-- A value that is not there is spelled by its own word. -/
theorem spells_none : Spells (optional reader) "None" none d d := by
  have hnone : Spells (do expect "None"; return (none : Option α)) "None" none d d :=
    (spells_expect rfl (by decide)).map fun _ => none
  exact ⟨fun rest => orElse_of_some (hnone.reads rest), hnone.depth, hnone.plain⟩

/-- A value that is there is spelled between brackets. -/
theorem spells_some (h : Spells reader t a (d + 1) (d + 1)) :
    Spells (optional reader) ("Some(" ++ (t ++ ")")) (some a) d d := by
  have hsome : Spells (do expect "Some("; let a ← reader; expect ")"; return some a)
      ("Some(" ++ (t ++ ")")) (some a) d d :=
    .behind ⟨rfl, by decide, by decide⟩
      (h.before ⟨⟨rfl, by decide, by decide⟩, by decide⟩ some)
  refine ⟨fun rest => ?_, hsome.depth, hsome.plain⟩
  rw [optional, orElse_of_none]
  · exact hsome.reads rest
  · -- the first word is not that of nothing
    rw [String.toList_append, lexemes_append (Or.inl (by decide))]
    rfl

/-- Each category is spelled by its name. -/
theorem spells_category (c : Category) : Spells category (Emit.category c) c d d := by
  cases c <;> exact spells_word (by decide) (by decide) fun rest => rfl

/-! ### Elements -/

/-- A number that may be absent is spelled either way. -/
theorem spells_optional (n? : Option Nat) :
    Spells (optional number) (Emit.optional n?) n? d d := by
  cases n? with
  | none => exact spells_none
  | some n =>
    have htext : Emit.optional (some n) = "Some(" ++ (toString n ++ ")") := by
      rw [← String.append_assoc]
      rfl
    rw [htext]
    exact spells_some (spells_number n)

/-- A terminal is spelled by its kind, its category and its next state. -/
theorem spells_terminal (t : Terminal) : Spells terminal (Emit.terminal t) t 0 0 := by
  have htext : Emit.terminal t = "Terminal \x7b kind: " ++ (toString t.kind ++
      (", category: RuleCategory::" ++ (Emit.category t.category ++ (", next_state: " ++
      (Emit.optional t.nextState ++ " \x7d"))))) := by
    rw [show ", next_state: " = ", " ++ "next_state: " by decide +kernel]
    unfold Emit.terminal
    simp only [String.append_assoc]
    rfl
  rw [htext]
  have hkind : Opens "Terminal \x7b kind: " 0 1 := by decide +kernel
  have hcategory : Separates ", category: RuleCategory::" 1 1 := by decide +kernel
  have hnext : Separates ", next_state: " 1 1 := by decide +kernel
  have hend : Separates " \x7d" 1 0 := by decide
  exact .behind hkind <| (spells_number _).between hcategory <|
    (spells_category _).between hnext <| (spells_optional _).before hend _

/-- An entry is spelled by its start row and its rule for the end. -/
theorem spells_lexEntry (e : LexEntry) : Spells lexEntry (Emit.lexEntry e) e 0 0 := by
  have htext : Emit.lexEntry e = "LexStateEntry \x7b start_row: " ++ (Emit.optional e.startRow ++
      (", eof_rule: " ++ (Emit.optional e.eofRule ++ " \x7d"))) := by
    unfold Emit.lexEntry
    simp only [String.append_assoc]
    rfl
  rw [htext]
  have hstart : Opens "LexStateEntry \x7b start_row: " 0 1 := by decide +kernel
  have heof : Separates ", eof_rule: " 1 1 := by decide +kernel
  have hend : Separates " \x7d" 1 0 := by decide +kernel
  exact .behind hstart <| (spells_optional _).between heof <| (spells_optional _).before hend _

/-- A pair is spelled by its numbers. -/
theorem spells_pair (p : Nat × Nat) : Spells pair (Emit.pair p) p 0 0 := by
  have htext : Emit.pair p = "(" ++ (toString p.1 ++ (", " ++ (toString p.2 ++ ")"))) := by
    unfold Emit.pair
    simp only [String.append_assoc]
    rfl
  rw [htext]
  have hopen : Opens "(" 0 1 := by decide +kernel
  have hcomma : Separates ", " 1 1 := by decide +kernel
  have hend : Separates ")" 1 0 := by decide +kernel
  exact .behind hopen <| (spells_number _).between hcomma <| (spells_number _).before hend _

/-- A transition is spelled by its class and its row, if there is one. -/
theorem spells_transition (t? : Option Transition) :
    Spells (optional transition) (Emit.transition t?) t? 0 0 := by
  cases t? with
  | none => exact spells_none
  | some t =>
    have htext : Emit.transition (some t) = "Some(" ++ (("Transition \x7b class: " ++
        (toString t.charClass ++ (", next_row: " ++ (toString t.nextRow ++ " \x7d")))) ++ ")") := by
      have hopen : "Some(Transition \x7b class: " = "Some(" ++ "Transition \x7b class: " := by
        decide +kernel
      have hclose : " \x7d)" = " \x7d" ++ ")" := by decide +kernel
      unfold Emit.transition
      simp only [hopen, hclose, String.append_assoc]
      rfl
    rw [htext]
    have hclass : Opens "Transition \x7b class: " 1 2 := by decide +kernel
    have hnext : Separates ", next_row: " 2 2 := by decide +kernel
    have hend : Separates " \x7d" 2 1 := by decide +kernel
    exact spells_some <| .behind hclass <| (spells_number _).between hnext <|
      (spells_number _).before hend _

/-- A class test is spelled by its two words and its page map. -/
theorem spells_classTest (t : ClassTest) : Spells classTest (Emit.classTest t) t 0 0 := by
  have htext : Emit.classTest t = "ClassTest \x7b ascii: [" ++
      (("0x" ++ hexWord (t.ascii.extractLsb' 0 64)) ++ (", " ++
      (("0x" ++ hexWord (t.ascii.extractLsb' 64 64)) ++ ("], pages: " ++
      (Emit.optional t.pageMap ++ " \x7d"))))) := by
    unfold Emit.classTest
    simp only [String.append_assoc]
    rfl
  have hascii : t.ascii.extractLsb' 64 64 ++ t.ascii.extractLsb' 0 64 = t.ascii := by
    rw [BitVec.extractLsb'_append_extractLsb'_eq_extractLsb' (by rfl)]
    exact BitVec.extractLsb'_eq_self
  have hopen : Opens "ClassTest \x7b ascii: [" 0 2 := by decide +kernel
  have hcomma : Separates ", " 2 2 := by decide +kernel
  have hpages : Separates "], pages: " 2 1 := by decide +kernel
  have hend : Separates " \x7d" 1 0 := by decide +kernel
  have h : Spells classTest (Emit.classTest t)
      ⟨t.ascii.extractLsb' 64 64 ++ t.ascii.extractLsb' 0 64, t.pageMap⟩ 0 0 := by
    rw [htext]
    exact .behind hopen <| (spells_bits64 _).between hcomma <|
      (spells_bits64 _).between hpages <| (spells_optional _).before hend _
  rw [hascii] at h
  exact h

/-- A page is spelled by its four words. -/
theorem spells_page (p : Page) : Spells page p.debug p 0 0 := by
  have htext : p.debug = "BitVec256([" ++
      (("0x" ++ hexWord (p.extractLsb' 0 64)) ++ (", " ++
      (("0x" ++ hexWord (p.extractLsb' 64 64)) ++ (", " ++
      (("0x" ++ hexWord (p.extractLsb' 128 64)) ++ (", " ++
      (("0x" ++ hexWord (p.extractLsb' 192 64)) ++ "])"))))))) := by
    show "BitVec256([" ++ String.intercalate ", " ["0x" ++ hexWord (p.extractLsb' 0 64),
      "0x" ++ hexWord (p.extractLsb' 64 64), "0x" ++ hexWord (p.extractLsb' 128 64),
      "0x" ++ hexWord (p.extractLsb' 192 64)] ++ "])" = _
    simp only [String.intercalate_cons_cons, String.intercalate_singleton, String.append_assoc]
  -- The four words make up the page, the lowest one printed first.
  have hbits : p.extractLsb' 192 64 ++ (p.extractLsb' 128 64 ++
      (p.extractLsb' 64 64 ++ p.extractLsb' 0 64)) = p := by
    rw [BitVec.extractLsb'_append_extractLsb'_eq_extractLsb' (by rfl),
      BitVec.extractLsb'_append_extractLsb'_eq_extractLsb' (by rfl),
      BitVec.extractLsb'_append_extractLsb'_eq_extractLsb' (by rfl)]
    exact BitVec.extractLsb'_eq_self
  have hopen : Opens "BitVec256([" 0 2 := by decide +kernel
  have hcomma : Separates ", " 2 2 := by decide +kernel
  have hend : Separates "])" 2 0 := by decide +kernel
  have h : Spells page p.debug (p.extractLsb' 192 64 ++ (p.extractLsb' 128 64 ++
      (p.extractLsb' 64 64 ++ p.extractLsb' 0 64))) 0 0 := by
    rw [htext]
    exact .behind hopen <| (spells_bits64 _).between hcomma <| (spells_bits64 _).between hcomma <|
      (spells_bits64 _).between hcomma <| (spells_bits64 _).before hend _
  rw [hbits] at h
  exact h

end Lexwright.Source

import Lexwright.Emit

/-!
# `Lexwright.Proofs.Emit.Lexemes`: source text as words and marks

What a compiler sees of the emitted text: the comments go first, then blanks separate words and
marks. A text may be cut anywhere but inside a word (`lexemes_append`), so the lexemes of a module
are those of its lines, one line after another (`lexemes_source`).

* `dropComments`: the text without its comments. Without them, the lines of a module are bare
  (`dropComments_lines`).
* `lexemes`: the words and marks of a text.
* `lineLexemes`: those of a line, whatever its comment says.
-/

set_option autoImplicit false

namespace Lexwright

/-- The text is one line: it has no line break. -/
def OneLine (text : String) : Prop := '\n' ∉ text.toList

instance (text : String) : Decidable (OneLine text) := inferInstanceAs (Decidable (_ ∉ _))

/-- Texts without line breaks have none together. -/
theorem OneLine.append {s t : String} (hs : OneLine s) (ht : OneLine t) : OneLine (s ++ t) := by
  rw [OneLine, String.toList_append, List.mem_append, not_or]
  exact ⟨hs, ht⟩

namespace Source

variable {α : Type} {s t : String}

/-- The text has neither a slash nor a line break. -/
def Plain (text : String) : Prop := ∀ c ∈ text.toList, c ≠ '/' ∧ c ≠ '\n'

-- the instance is named: the search may find one that tries every character there is
instance (text : String) : Decidable (Plain text) := List.decidableBAll _ _

/-- Plain texts are plain together. -/
theorem Plain.append (hs : Plain s) (ht : Plain t) : Plain (s ++ t) := by
  intro c hc
  rw [String.toList_append, List.mem_append] at hc
  exact hc.elim (hs c) (ht c)

/-- A plain text opens no comment. -/
theorem Plain.not_slash (hs : Plain s) : '/' ∉ s.toList := fun h => (hs _ h).1 rfl

/-- A plain text has no line break. -/
theorem Plain.oneLine (hs : Plain s) : OneLine s := fun h => (hs _ h).2 rfl

/-! ### Comments -/

/-- The text without its comments. A comment begins with two slashes and ends before the next line
break; `inside` tells whether the text begins in a comment. -/
def dropComments (inside : Bool) : List Char → List Char
  | [] => []
  | c :: rest =>
    if c = '\n' then c :: dropComments false rest
    else if inside || (c == '/' && rest.head? == some '/') then dropComments true rest
    else c :: dropComments false rest

/-- A comment ends with its line. -/
theorem dropComments_line {s : List Char} (hs : '\n' ∉ s) (inside : Bool) (rest : List Char) :
    dropComments inside (s ++ '\n' :: rest) =
      dropComments inside s ++ '\n' :: dropComments false rest := by
  induction s generalizing inside with
  | nil => rfl
  | cons c s ih =>
    rw [List.mem_cons, not_or] at hs
    -- the line break is no slash, so no comment begins at the last character
    have hhead : ((s ++ '\n' :: rest).head? == some '/') = (s.head? == some '/') := by
      cases s <;> rfl
    rw [List.cons_append, dropComments, dropComments, hhead, if_neg (Ne.symm hs.1),
      if_neg (Ne.symm hs.1)]
    split
    · exact ih hs.2 true
    · rw [ih hs.2 false, List.cons_append]

/-- A comment goes on to the end of its line. -/
theorem dropComments_of_inside {s : List Char} (hs : '\n' ∉ s) : dropComments true s = [] := by
  induction s with
  | nil => rfl
  | cons c s ih =>
    rw [List.mem_cons, not_or] at hs
    rw [dropComments, if_neg (Ne.symm hs.1), Bool.true_or, if_pos rfl, ih hs.2]

/-- Text without slashes is no comment. -/
theorem dropComments_append {s : List Char} (hs : '/' ∉ s) (rest : List Char) :
    dropComments false (s ++ rest) = s ++ dropComments false rest := by
  induction s with
  | nil => rfl
  | cons c s ih =>
    rw [List.mem_cons, not_or] at hs
    have hslash : (c == '/') = false := beq_false_of_ne (Ne.symm hs.1)
    rw [List.cons_append, dropComments, hslash, ih hs.2, Bool.false_and, Bool.or_false]
    simp

/-- The text up to the first comment. -/
def code : List Char → List Char
  | [] => []
  | c :: rest => if c == '/' && rest.head? == some '/' then [] else c :: code rest

/-- Text without slashes is code. -/
theorem code_append {s : List Char} (hs : '/' ∉ s) (rest : List Char) :
    code (s ++ rest) = s ++ code rest := by
  induction s with
  | nil => rfl
  | cons c s ih =>
    rw [List.mem_cons, not_or] at hs
    have hslash : (c == '/') = false := beq_false_of_ne (Ne.symm hs.1)
    rw [List.cons_append, code, hslash, ih hs.2, Bool.false_and]
    rfl

/-- Within a line, what stands before the first comment is all that is no comment. -/
theorem dropComments_eq_code {s : List Char} (hs : '\n' ∉ s) : dropComments false s = code s := by
  induction s with
  | nil => rfl
  | cons c s ih =>
    rw [List.mem_cons, not_or] at hs
    rw [dropComments, code, if_neg (Ne.symm hs.1), Bool.false_or, dropComments_of_inside hs.2,
      ih hs.2]

/-! ### Words and marks -/

/-- Whether the character may stand in a word. Lifetimes and names with an underscore are words. -/
def isWordChar (c : Char) : Bool := c.isAlphanum || c == '_' || c == '\''

/-- A word, or any other character that is no blank. -/
inductive Lexeme where
  | word (text : List Char)
  | mark (c : Char)
deriving DecidableEq

/-- The word that ends here, if there is one. -/
def wordEnd (word : List Char) : List Lexeme := if word.isEmpty then [] else [.word word]

/-- The lexemes of a text that begins behind the first characters of a word. -/
def lexemesFrom (word : List Char) : List Char → List Lexeme
  | [] => wordEnd word
  | c :: rest =>
    if isWordChar c then lexemesFrom (word ++ [c]) rest
    else wordEnd word ++ (if c.isWhitespace then [] else [.mark c]) ++ lexemesFrom [] rest

/-- The words and marks of a text. -/
def lexemes (text : List Char) : List Lexeme := lexemesFrom [] text

/-- Whether the text does not begin inside of a word. -/
def startsApart (text : List Char) : Bool := text.head?.all fun c => !isWordChar c

/-- Whether the text does not end inside of a word. -/
def endsApart (text : List Char) : Bool := text.getLast?.all fun c => !isWordChar c

/-- Whether a text starts apart depends on its first character. -/
theorem startsApart_append {s t : List Char} (hs : startsApart s = true) (hne : s ≠ []) :
    startsApart (s ++ t) = true := by
  obtain ⟨c, s, rfl⟩ := List.exists_cons_of_ne_nil hne
  exact hs

/-- A text that starts apart ends the word before it. The induction is on what stands before. -/
theorem lexemesFrom_append {t : List Char} (ht : startsApart t = true) (word s : List Char) :
    lexemesFrom word (s ++ t) = lexemesFrom word s ++ lexemes t := by
  induction s generalizing word with
  | nil =>
    cases t with
    | nil => simp [lexemes, lexemesFrom, wordEnd]
    | cons c t =>
      have hc : isWordChar c = false := by simpa [startsApart] using ht
      simp [lexemes, lexemesFrom, hc, wordEnd]
  | cons c s ih =>
    rw [List.cons_append, lexemesFrom, lexemesFrom]
    split
    · exact ih _
    · rw [ih, List.append_assoc _ _ (lexemes t)]

/-- A text may be cut where no word stands on both sides. -/
theorem lexemes_append {s t : List Char} (h : endsApart s = true ∨ startsApart t = true) :
    lexemes (s ++ t) = lexemes s ++ lexemes t := by
  rcases h with hs | ht
  · -- The last character is cut off, and stands apart in front of the rest.
    obtain rfl | ⟨s, c, rfl⟩ := List.eq_nil_or_concat s
    · rfl
    · rw [List.concat_eq_append] at hs ⊢
      have hc : isWordChar c = false := by simpa [endsApart] using hs
      have hstart : ∀ u, startsApart (c :: u) = true := fun u => by simp [startsApart, hc]
      rw [List.append_assoc, List.singleton_append, lexemes, lexemes,
        lexemesFrom_append (hstart t), lexemesFrom_append (hstart []), List.append_assoc]
      simp [lexemes, lexemesFrom, hc, wordEnd]
  · exact lexemesFrom_append ht [] s

/-- A text that ends apart does not join what follows it. -/
theorem lexemes_of_ends (hs : endsApart s.toList = true) :
    lexemes (s ++ t).toList = lexemes s.toList ++ lexemes t.toList := by
  rw [String.toList_append, lexemes_append (Or.inl hs)]

/-- A text that starts apart does not join what stands before it. -/
theorem lexemes_of_starts {u : String} (ht : startsApart t.toList = true) (hne : t.toList ≠ []) :
    lexemes (s ++ (t ++ u)).toList = lexemes s.toList ++ lexemes (t ++ u).toList := by
  rw [String.toList_append, lexemes_append (Or.inr _)]
  rw [String.toList_append]
  exact startsApart_append ht hne

/-- Blanks are no part of any word. -/
theorem lexemes_blanks (n : Nat) (s : List Char) :
    lexemes (List.replicate n ' ' ++ s) = lexemes s := by
  induction n with
  | zero => rfl
  | succ n ih =>
    rw [List.replicate_succ, List.cons_append, lexemes, lexemesFrom, if_neg (by decide)]
    exact ih

/-- The text is one word. -/
def IsWord (text : List Char) : Prop := text ≠ [] ∧ ∀ c ∈ text, isWordChar c = true

instance (text : List Char) : Decidable (IsWord text) :=
  have := List.decidableBAll (fun c => isWordChar c = true) text
  inferInstanceAs (Decidable (_ ∧ _))

/-- A word is plain. -/
theorem IsWord.plain (h : IsWord s.toList) : Plain s := by
  intro c hc
  have hword := h.2 c hc
  constructor <;> rintro rfl <;> exact absurd hword (by decide)

/-- The characters of a word go to the word that is being read. -/
theorem lexemesFrom_of_word {s : List Char} (hs : ∀ c ∈ s, isWordChar c = true)
    (word : List Char) : lexemesFrom word s = wordEnd (word ++ s) := by
  induction s generalizing word with
  | nil => rw [List.append_nil, lexemesFrom]
  | cons c s ih =>
    rw [lexemesFrom, if_pos (hs c List.mem_cons_self),
      ih (fun d hd => hs d (List.mem_cons_of_mem _ hd)), List.append_assoc, List.singleton_append]

/-- A word is read as one. -/
theorem lexemes_of_isWord {s : List Char} (hs : IsWord s) : lexemes s = [.word s] := by
  rw [lexemes, lexemesFrom_of_word hs.2, List.nil_append, wordEnd, if_neg]
  simpa using hs.1

/-! ### Lines -/

/-- The words and marks of a line without its comment. -/
def lineLexemes (line : String) : List Lexeme := lexemes (dropComments false line.toList)

/-- A comment is not seen. -/
theorem lineLexemes_comment (hs : Plain s) (ht : OneLine t) :
    lineLexemes (s ++ ("//" ++ t)) = lexemes s.toList := by
  have hcomment : dropComments false ("//" ++ t).toList = [] := by
    rw [String.toList_append]
    show dropComments false ('/' :: '/' :: t.toList) = []
    rw [dropComments, if_neg (by decide), if_pos (by rfl)]
    refine dropComments_of_inside ?_
    rw [List.mem_cons, not_or]
    exact ⟨by decide, ht⟩
  rw [lineLexemes, String.toList_append, dropComments_append hs.not_slash, hcomment,
    List.append_nil]

/-- A plain line is read as it stands. -/
theorem lineLexemes_plain (hs : Plain s) : lineLexemes s = lexemes s.toList := by
  have h := dropComments_append hs.not_slash []
  rw [List.append_nil] at h
  rw [lineLexemes, h, dropComments, List.append_nil]

/-- Neither is a margin. -/
theorem lineLexemes_margin (n : Nat) (line : String) :
    lineLexemes (String.ofList (List.replicate n ' ') ++ line) = lineLexemes line := by
  rw [lineLexemes, String.toList_append, String.toList_ofList, dropComments_append, lexemes_blanks,
    lineLexemes]
  intro h
  cases List.eq_of_mem_replicate h

/-- A line as it stands in the text, behind its margin. -/
def printed (width : Nat) (line : String) : String :=
  (if line.isEmpty then line else String.ofList (List.replicate width ' ') ++ line) ++ "\n"

/-- A margin has no line break. -/
theorem oneLine_margin (n : Nat) : OneLine (String.ofList (List.replicate n ' ')) := by
  rw [OneLine, String.toList_ofList]
  exact fun h => absurd (List.eq_of_mem_replicate h) (by decide)

/-- A line behind its margin, without its comment. -/
def bare (width : Nat) (line : String) : List Char :=
  if line.isEmpty then [] else List.replicate width ' ' ++ code line.toList

/-- What a comment says makes no difference. -/
theorem bare_comment (hs : '/' ∉ s.toList) (width : Nat) (t : String) :
    bare width (s ++ ("//" ++ t)) = List.replicate width ' ' ++ s.toList := by
  have hempty : (s ++ ("//" ++ t)).isEmpty = false := by simp
  rw [bare, hempty, String.toList_append, String.toList_append, code_append hs]
  show _ ++ (s.toList ++ code ('/' :: '/' :: t.toList)) = _
  simp [code]

/-- A printed line keeps its code and its line break. -/
theorem dropComments_printed {line : String} (hline : OneLine line) (width : Nat)
    (rest : List Char) : dropComments false ((printed width line).toList ++ rest) =
      bare width line ++ '\n' :: dropComments false rest := by
  have hbreak : ∀ text : String, OneLine text →
      dropComments false ((text ++ "\n").toList ++ rest) =
        code text.toList ++ '\n' :: dropComments false rest := by
    intro text htext
    rw [String.toList_append, List.append_assoc, ← dropComments_eq_code htext]
    exact dropComments_line htext false rest
  unfold printed bare
  split
  · rename_i hempty
    rw [hbreak line hline, String.isEmpty_iff.1 hempty]
    rfl
  · rw [hbreak _ ((oneLine_margin width).append hline), String.toList_append, String.toList_ofList,
      code_append]
    intro hslash
    cases List.eq_of_mem_replicate hslash

/-- Lines that are one line each, without their comments. -/
theorem dropComments_lines {lines : List String} (h : ∀ line ∈ lines, OneLine line) (width : Nat) :
    dropComments false (String.join (lines.map (printed width))).toList =
      (lines.map (bare width)).flatMap fun line => line ++ ['\n'] := by
  rw [String.toList_join, List.flatMap_map, List.flatMap_map]
  induction lines with
  | nil => rfl
  | cons line lines ih =>
    rw [List.flatMap_cons, List.flatMap_cons, dropComments_printed (h line List.mem_cons_self),
      ih fun l hl => h l (List.mem_cons_of_mem _ hl), List.append_assoc]
    rfl

/-- The code of a printed line is that of the line: a margin adds no word. -/
theorem lexemes_bare {line : String} (hline : OneLine line) (width : Nat) :
    lexemes (bare width line) = lineLexemes line := by
  unfold bare
  split
  · rename_i hempty
    rw [String.isEmpty_iff.1 hempty]
    rfl
  · rw [lexemes_blanks, lineLexemes, dropComments_eq_code hline]

/-- The lexemes of a module are those of its lines. -/
theorem lexemes_source {k : Compilation} (hheaders : k.options.headers = [])
    (hlines : ∀ line ∈ k.sourceLines, OneLine line) (width : Nat) :
    lexemes (dropComments false (k.source width).toList) = k.sourceLines.flatMap lineLexemes := by
  have hsource : k.source width = String.join (k.sourceLines.map (printed width)) := by
    unfold Compilation.source Emit.indent
    rw [hheaders]
    exact String.intercalate_singleton
  rw [hsource, dropComments_lines hlines, List.flatMap_map]
  generalize k.sourceLines = lines at hlines
  induction lines with
  | nil => rfl
  | cons line lines ih =>
    rw [List.flatMap_cons, List.flatMap_cons, List.append_assoc, lexemes_append (Or.inr (by rfl)),
      lexemes_bare (hlines line List.mem_cons_self),
      ← ih fun l hl => hlines l (List.mem_cons_of_mem _ hl)]
    rfl

end Source

end Lexwright

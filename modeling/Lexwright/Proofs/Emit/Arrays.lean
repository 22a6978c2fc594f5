import Lexwright.Proofs.Emit.Names
import Lexwright.Proofs.Emit.Spelling

/-!
# `Lexwright.Proofs.Emit.Arrays`: what the lines of an array declare

* `Writes`: what lines amount to without their comments. Elements may stand one to a line, with a
  comment or without, or several to a line (`writes_rowLines`, `writes_chunks`).
* `Declares`: the arrays that lines declare, whatever stands behind them. The lines of an array
  whose elements are closed declare it (`declares_staticArray`), so the lines of a module declare
  its arrays in order (`Declares.append`).
-/

set_option autoImplicit false

namespace Lexwright.Source

variable {α : Type} {reader : Reader α} {lines lines' texts : List String}
  {found found' : List Lexeme} {name type s t : String}

/-! ### Lines and their lexemes -/

/-- Each of the lines is one line, and these are their lexemes. -/
structure Writes (lines : List String) (found : List Lexeme) : Prop where
  oneLine : ∀ line ∈ lines, OneLine line
  lexemes : lines.flatMap lineLexemes = found

/-- Elements of an array, with a comma behind each. -/
def listed (texts : List String) : List Lexeme :=
  texts.flatMap fun text => lexemes text.toList ++ [.mark ',']

/-- Elements are listed one after another. -/
theorem listed_append (texts texts' : List String) :
    listed (texts ++ texts') = listed texts ++ listed texts' :=
  List.flatMap_append

namespace Writes

/-- No line writes nothing. -/
theorem nil : Writes [] [] where
  oneLine _ hline := absurd hline List.not_mem_nil
  lexemes := rfl

/-- Lines write what each of them writes, in order. -/
theorem append (h : Writes lines found) (h' : Writes lines' found') :
    Writes (lines ++ lines') (found ++ found') where
  oneLine line hline := (List.mem_append.1 hline).elim (h.oneLine line) (h'.oneLine line)
  lexemes := by rw [List.flatMap_append, h.lexemes, h'.lexemes]

/-- A plain line writes its own words. -/
theorem plain (hs : Plain s) : Writes [s] (Source.lexemes s.toList) where
  oneLine line hline := by
    rw [List.mem_singleton.1 hline]
    exact hs.oneLine
  lexemes := by rw [List.flatMap_singleton, lineLexemes_plain hs]

/-- A comment behind a plain line writes nothing. -/
theorem comment (hs : Plain s) (ht : OneLine t) :
    Writes [s ++ ("//" ++ t)] (Source.lexemes s.toList) where
  oneLine line hline := by
    rw [List.mem_singleton.1 hline]
    exact hs.oneLine.append (.append (by decide) ht)
  lexemes := by rw [List.flatMap_singleton, lineLexemes_comment hs ht]

/-- Lines for each item write what each item writes. -/
theorem flatMap {items : List α} {f : α → List String} {g : α → List Lexeme}
    (h : ∀ a ∈ items, Writes (f a) (g a)) : Writes (items.flatMap f) (items.flatMap g) := by
  induction items with
  | nil => exact nil
  | cons a items ih =>
    exact (h a List.mem_cons_self).append (ih fun b hb => h b (List.mem_cons_of_mem _ hb))

/-- A line for each item writes what each item writes. -/
theorem map {items : List α} {f : α → String} {g : α → List Lexeme}
    (h : ∀ a ∈ items, Writes [f a] (g a)) : Writes (items.map f) (items.flatMap g) := by
  rw [← List.flatMap_singleton' (items.map f), List.flatMap_map]
  exact flatMap h

/-- An item without a line writes nothing. -/
theorem filterMap {items : List α} {f : α → Option String} {g : α → List Lexeme}
    (h : ∀ a ∈ items, Writes (f a).toList (g a)) :
    Writes (items.filterMap f) (items.flatMap g) := by
  induction items with
  | nil => exact nil
  | cons a items ih =>
    have hrest := ih fun b hb => h b (List.mem_cons_of_mem _ hb)
    have hfirst := h a List.mem_cons_self
    rw [List.filterMap_cons]
    cases hline : f a with
    | none =>
      rw [hline] at hfirst
      exact hfirst.append hrest
    | some line =>
      rw [hline] at hfirst
      exact hfirst.append hrest

/-- A margin writes nothing. -/
theorem indent (h : Writes lines found) : Writes (lines.map ("    " ++ ·)) found where
  oneLine line hline := by
    obtain ⟨line, hmem, rfl⟩ := List.mem_map.1 hline
    exact .append (by decide) (h.oneLine line hmem)
  lexemes := by
    rw [List.flatMap_map, ← h.lexemes]
    exact congrArg (List.flatMap · lines) (funext (lineLexemes_margin 4))

end Writes

/-! ### Comments on lines of their own -/

/-- A comment on a line of its own, which begins with `label`. -/
theorem writes_remark {label rest : String} (words : String) (hlabel : label = "//" ++ words)
    (hwords : OneLine words) (hrest : OneLine rest) : Writes [label ++ rest] [] := by
  have hline : label ++ rest = "" ++ ("//" ++ (words ++ rest)) := by
    rw [hlabel, String.empty_append, String.append_assoc]
  rw [hline]
  exact Writes.comment (s := "") (by decide) (hwords.append hrest)

/-- Lines of which none writes anything write nothing. -/
theorem writes_remarks (h : ∀ line ∈ lines, Writes [line] []) :
    Writes lines [] := by
  induction lines with
  | nil => exact .nil
  | cons line lines ih =>
    exact (h line List.mem_cons_self).append (ih fun l hl => h l (List.mem_cons_of_mem _ hl))

/-! ### Elements one to a line -/

/-- A comma is a mark of its own. -/
theorem lexemes_comma (s : String) :
    lexemes (s ++ ",").toList = lexemes s.toList ++ [.mark ','] := by
  rw [String.toList_append, lexemes_append (Or.inr (by decide))]
  rfl

/-- An element and its comma are one listed element. -/
theorem writes_element (hs : Plain s) : Writes [s ++ ","] (listed [s]) := by
  rw [listed, List.flatMap_singleton, ← lexemes_comma]
  exact .plain (hs.append (by decide))

/-- An element and a comment on it, which begins with `label`. -/
theorem writes_commented {label : String} (words : String) (hlabel : label = ", //" ++ words)
    (hwords : OneLine words) (hs : Plain s) (ht : OneLine t) :
    Writes [s ++ label ++ t] (listed [s]) := by
  have hline : s ++ label ++ t = (s ++ ", ") ++ ("//" ++ (words ++ t)) := by
    have hsplit : ", //" = ", " ++ "//" := by decide
    rw [hlabel, hsplit]
    simp only [String.append_assoc]
  have hblank : lexemes (s ++ ", ").toList = listed [s] := by
    rw [listed, List.flatMap_singleton, String.toList_append,
      lexemes_append (Or.inr (by decide))]
    rfl
  rw [hline, ← hblank]
  exact .comment (hs.append (by decide)) (hwords.append ht)

/-- A line for each element lists the elements. -/
theorem writes_map {items : List α} {f g : α → String} (htexts : items.map g = texts)
    (h : ∀ a ∈ items, Writes [f a] (listed [g a])) : Writes (items.map f) (listed texts) := by
  have hmap := Writes.map h
  rw [← htexts, listed, List.flatMap_map]
  simp only [listed, List.flatMap_singleton] at hmap
  exact hmap

/-- Printing needs the items only, not their places. -/
theorem map_zipIdx_fst (items : List α) (print : α → String) :
    items.zipIdx.map (fun a => print a.1) = items.map print := by
  show items.zipIdx.map (print ∘ Prod.fst) = _
  rw [← List.map_map, List.zipIdx_map_fst]

section Items

variable {items : List α} {print : α → String}

/-- Elements one to a line. -/
theorem writes_each (hprint : ∀ a, Plain (print a)) :
    Writes (items.map fun a => print a ++ ",") (listed (items.map print)) :=
  writes_map rfl fun a _ => writes_element (hprint a)

/-- Elements one to a line, each with its number. -/
theorem writes_numbered (label words : String) (hlabel : label = ", //" ++ words)
    (hwords : OneLine words) (hprint : ∀ a, Plain (print a)) :
    Writes (items.zipIdx.map fun a => print a.1 ++ label ++ toString a.2)
      (listed (items.map print)) :=
  writes_map (map_zipIdx_fst items print) fun a _ =>
    writes_commented words hlabel hwords (hprint a.1) (oneLine_toString a.2)

/-- Elements one to a line, each with its name. -/
theorem writes_named {names : List String} (hlength : names.length = items.length)
    (hnames : ∀ name ∈ names, OneLine name) (hprint : ∀ a, Plain (print a)) :
    Writes (Compilation.named (items.map print) names) (listed (items.map print)) := by
  have helements : (List.zip (items.map print) names).zipIdx.map (fun e => e.1.1) =
      items.map print := by
    rw [map_zipIdx_fst _ Prod.fst, List.map_fst_zip (by rw [List.length_map, hlength])]
  refine writes_map helements fun e he => ?_
  obtain ⟨htext, hname⟩ := List.of_mem_zip (List.fst_mem_of_mem_zipIdx he)
  obtain ⟨a, -, ha⟩ := List.mem_map.1 htext
  have hline : s!"{e.1.1}, // {e.2}: {e.1.2}" =
      e.1.1 ++ ", // " ++ (toString e.2 ++ (": " ++ e.1.2)) := by
    simp only [← String.append_assoc]
    rfl
  rw [hline]
  refine writes_commented " " (by decide) (by decide) (by rw [← ha]; exact hprint a) ?_
  exact (oneLine_toString _).append (.append (by decide) (hnames _ hname))

end Items

/-! ### Several elements to a line -/

/-- Plain texts with commas between them are plain. -/
theorem plain_commas (h : ∀ text ∈ texts, Plain text) : Plain (Emit.commas texts) :=
  intercalate_of_append (by decide) Plain.append (by decide) h

/-- Commas between elements, and one behind the last. -/
theorem listed_commas (hne : texts ≠ []) : listed [Emit.commas texts] = listed texts := by
  unfold Emit.commas
  induction texts with
  | nil => exact absurd rfl hne
  | cons text texts ih =>
    cases texts with
    | nil => rw [String.intercalate_singleton]
    | cons text' texts =>
      have hrest := ih (List.cons_ne_nil _ _)
      rw [listed, List.flatMap_singleton] at hrest ⊢
      rw [String.intercalate_cons_cons, String.append_assoc,
        lexemes_of_starts (by decide) (by decide), lexemes_of_ends (by decide), List.append_assoc,
        List.append_assoc, hrest]
      show lexemes text.toList ++ ([.mark ','] ++ listed (text' :: texts)) = _
      rw [← List.append_assoc, listed, listed]
      rfl

/-- The chunks of a list are the list again. -/
theorem flatten_chunks (n : Nat) (items : List α) : (Emit.chunks n items).flatten = items := by
  fun_induction Emit.chunks n items with
  | case1 => rfl
  | case2 a rest ih =>
    rw [List.flatten_cons, ih, List.cons_append, List.take_append_drop]

/-- No chunk is empty. -/
theorem ne_nil_of_mem_chunks {n : Nat} {items chunk : List α} (h : chunk ∈ Emit.chunks n items) :
    chunk ≠ [] := by
  fun_induction Emit.chunks n items with
  | case1 => exact absurd h List.not_mem_nil
  | case2 a rest ih =>
    rcases List.mem_cons.1 h with rfl | h
    · exact List.cons_ne_nil _ _
    · exact ih h

/-- Lists of elements are listed one after another. -/
theorem listed_flatten (lists : List (List String)) :
    listed lists.flatten = lists.flatMap listed := by
  induction lists with
  | nil => rfl
  | cons texts lists ih =>
    rw [List.flatten_cons, List.flatMap_cons, ← ih, listed_append]

/-- Some elements to a line. -/
theorem writes_chunks {items : List α} {print : α → String} (n : Nat)
    (hprint : ∀ a, Plain (print a)) :
    Writes ((Emit.chunks n (items.map print)).map fun chunk => Emit.commas chunk ++ ",")
      (listed (items.map print)) := by
  have hlisted : listed (items.map print) =
      (Emit.chunks n (items.map print)).flatMap listed := by
    rw [← listed_flatten, flatten_chunks]
  rw [hlisted]
  refine Writes.map fun chunk hchunk => ?_
  rw [← listed_commas (ne_nil_of_mem_chunks hchunk)]
  refine writes_element (plain_commas fun text htext => ?_)
  have hmem := List.mem_flatten_of_mem hchunk htext
  rw [flatten_chunks] at hmem
  obtain ⟨a, -, rfl⟩ := List.mem_map.1 hmem
  exact hprint a

/-- The members of a row to a line. -/
theorem writes_rowLines (members : List (List Nat)) :
    Writes (Compilation.rowLines members) (listed (members.flatten.map toString)) := by
  have hlisted : listed (members.flatten.map toString) =
      members.zipIdx.flatMap fun row => listed (row.1.map toString) := by
    rw [List.map_flatten, listed_flatten, List.flatMap_map,
      Lexicon.flatMap_zipIdx members fun row => listed (row.map toString)]
  rw [hlisted]
  refine Writes.filterMap fun row _ => ?_
  split
  · -- a row without members has no line
    rename_i hempty
    rw [List.isEmpty_iff.1 hempty]
    exact .nil
  · rename_i hempty
    have hne : row.1.map toString ≠ [] := by
      intro h
      exact hempty (List.isEmpty_iff.2 (List.map_eq_nil_iff.1 h))
    rw [← listed_commas hne]
    refine writes_commented " row " (by decide) (by decide) (plain_commas fun text htext => ?_)
      (oneLine_toString row.2)
    obtain ⟨n, -, rfl⟩ := List.mem_map.1 htext
    exact (spells_number (d := 0) n).plain

/-! ### Arrays -/

/-- Words that keep their brackets closed belong to the element that is being read. -/
theorem elementsFrom_append {ls : List Lexeme} {d d' : Nat}
    (h : ls.foldlM Lexeme.depth? d = some d') (element rest : List Lexeme) :
    elementsFrom d element (ls ++ rest) = elementsFrom d' (element ++ ls) rest := by
  induction ls generalizing d element with
  | nil =>
    cases h
    rw [List.append_nil, List.nil_append]
  | cons l ls ih =>
    rw [List.foldlM_cons] at h
    obtain ⟨e, hl, h⟩ := Option.bind_eq_some_iff.1 h
    rw [List.cons_append, elementsFrom, hl]
    show elementsFrom e (element ++ [l]) (ls ++ rest) = _
    rw [ih h, List.append_assoc, List.singleton_append]

/-- The brackets of the text are closed, and it has no comma outside of them. -/
def IsElement (text : String) : Prop :=
  (lexemes text.toList).foldlM Lexeme.depth? 0 = some 0

/-- Listed elements are found one by one, up to the bracket. -/
theorem elementsFrom_listed (htexts : ∀ text ∈ texts, IsElement text) (rest : List Lexeme) :
    elementsFrom 0 [] (listed texts ++ .mark ']' :: rest) =
      some (texts.map fun text => lexemes text.toList, rest) := by
  induction texts with
  | nil => rfl
  | cons text texts ih =>
    have hrest := ih fun t ht => htexts t (List.mem_cons_of_mem _ ht)
    have hlisted : listed (text :: texts) =
        lexemes text.toList ++ .mark ',' :: listed texts := by
      rw [listed, List.flatMap_cons, List.append_assoc]
      rfl
    rw [hlisted, List.append_assoc, List.cons_append,
      elementsFrom_append (htexts text List.mem_cons_self)]
    show (elementsFrom 0 [] (listed texts ++ _)).bind _ = _
    rw [hrest]
    rfl

/-- The keyword of a declaration never stands between brackets that close. -/
theorem keyword_notMem {ls : List Lexeme} {d d' : Nat}
    (h : ls.foldlM Lexeme.depth? d = some d') : keyword ∉ ls := by
  induction ls generalizing d with
  | nil => exact List.not_mem_nil
  | cons l ls ih =>
    rw [List.foldlM_cons] at h
    obtain ⟨e, hl, h⟩ := Option.bind_eq_some_iff.1 h
    rw [List.mem_cons, not_or]
    refine ⟨?_, ih h⟩
    rintro rfl
    rw [show Lexeme.depth? d keyword = none by rfl] at hl
    cases hl

/-- The keyword of a declaration is no part of an element. -/
theorem keyword_notMem_listed (htexts : ∀ text ∈ texts, IsElement text) :
    keyword ∉ listed texts := by
  intro h
  obtain ⟨text, htext, h⟩ := List.mem_flatMap.1 h
  rcases List.mem_append.1 h with h | h
  · exact keyword_notMem (htexts text htext) h
  · exact absurd (List.mem_singleton.1 h) (by decide)

/-- Words before the first keyword declare nothing. -/
theorem arrays?_append {ls : List Lexeme} (h : keyword ∉ ls) (rest : List Lexeme) :
    arrays? (ls ++ rest) = arrays? rest := by
  induction ls with
  | nil => rfl
  | cons l ls ih =>
    rw [List.mem_cons, not_or] at h
    rw [List.cons_append, arrays?, if_neg (Ne.symm h.1), ih h.2]

/-- Each of the lines is one line, and they declare these arrays, whatever stands behind them. -/
structure Declares (lines : List String) (arrays : List StaticArray) : Prop where
  oneLine : ∀ line ∈ lines, OneLine line
  arrays : ∀ rest, arrays? (lines.flatMap lineLexemes ++ rest) = (arrays? rest).map (arrays ++ ·)

/-- Lines declare what each of them declares, in order. -/
theorem Declares.append {arrays arrays' : List StaticArray} (h : Declares lines arrays)
    (h' : Declares lines' arrays') : Declares (lines ++ lines') (arrays ++ arrays') where
  oneLine line hline := (List.mem_append.1 hline).elim (h.oneLine line) (h'.oneLine line)
  arrays rest := by
    rw [List.flatMap_append, List.append_assoc, h.arrays, h'.arrays, Option.map_map]
    simp only [Function.comp_def, List.append_assoc]

/-- Lines without the keyword declare nothing. -/
theorem Writes.declares (h : Writes lines found) (hkeyword : keyword ∉ found) :
    Declares lines [] where
  oneLine := h.oneLine
  arrays rest := by
    rw [h.lexemes, arrays?_append hkeyword]
    cases arrays? rest <;> rfl

/-- Lines without a comment and without the keyword declare nothing. -/
theorem declares_nothing (h : ∀ line ∈ lines, Plain line ∧ keyword ∉ lexemes line.toList) :
    Declares lines [] := by
  have hlines := Writes.map (f := id) fun line hline => Writes.plain (h line hline).1
  rw [List.map_id] at hlines
  refine hlines.declares fun hmem => ?_
  obtain ⟨line, hline, hmem⟩ := List.mem_flatMap.1 hmem
  exact (h line hline).2 hmem

/-- The name is a word of its own, and the type has no semicolon and is none. -/
def IsHeader (name type : String) : Prop :=
  IsWord name.toList ∧ .word name.toList ≠ keyword ∧ Plain type ∧
    ∀ l ∈ lexemes type.toList, l ≠ .mark ';' ∧ l ≠ keyword

instance (name type : String) : Decidable (IsHeader name type) :=
  inferInstanceAs (Decidable (_ ∧ _ ∧ _ ∧ _))

/-- What stands between the keyword of an array and its elements. -/
def headerLexemes (name type : String) (size : Nat) : List Lexeme :=
  .word name.toList :: (lexemes ": [".toList ++ (lexemes type.toList ++ (lexemes "; ".toList ++
    (lexemes (toString size).toList ++ lexemes "] = [".toList))))

/-- The header of a declaration holds its keyword at the start only. -/
theorem keyword_notMem_header (h : IsHeader name type) (size : Nat) :
    keyword ∉ headerLexemes name type size := by
  obtain ⟨-, hname, -, htype⟩ := h
  simp only [headerLexemes, List.mem_cons, List.mem_append, not_or]
  exact ⟨Ne.symm hname, by decide, fun h => (htype _ h).2 rfl, by decide,
    keyword_notMem (spells_number (d := 0) size).depth, by decide⟩

/-- The first line of an array. -/
theorem writes_header (h : IsHeader name type) (size : Nat) :
    Writes [s!"static {name}: [{type}; {size}] = ["] (keyword :: headerLexemes name type size) := by
  obtain ⟨hword, -, htype, -⟩ := h
  have hline : s!"static {name}: [{type}; {size}] = [" = "static " ++ (name ++ (": [" ++ (type ++
      ("; " ++ (toString size ++ "] = ["))))) := by
    simp only [String.append_assoc]
    rfl
  have hnumber := (spells_number (d := 0) size).plain
  have hplain : Plain ("static " ++ (name ++ (": [" ++ (type ++ ("; " ++
      (toString size ++ "] = [")))))) :=
    .append (by decide) (hword.plain.append (.append (by decide) (htype.append
      (.append (by decide) (hnumber.append (by decide))))))
  have hfound : lexemes ("static " ++ (name ++ (": [" ++ (type ++ ("; " ++
      (toString size ++ "] = [")))))).toList = keyword :: headerLexemes name type size := by
    rw [lexemes_of_ends (s := "static ") (by decide),
      lexemes_of_starts (s := name) (by decide) (by decide), lexemes_of_isWord hword,
      lexemes_of_ends (s := ": [") (by decide),
      lexemes_of_starts (s := type) (by decide) (by decide),
      lexemes_of_ends (s := "; ") (by decide), String.toList_append,
      lexemes_append (Or.inr (by decide))]
    rfl
  rw [hline, ← hfound]
  exact .plain hplain

/-- What stands behind the keyword of an array is read as the array. -/
theorem staticArray_reads (h : IsHeader name type) (size : Nat)
    (htexts : ∀ text ∈ texts, IsElement text) (rest : List Lexeme) :
    staticArray (headerLexemes name type size ++ (listed texts ++ (lexemes "];".toList ++ rest))) =
      some (⟨name.toList, lexemes type.toList, size, texts.map fun text => lexemes text.toList⟩,
        rest) := by
  have htype : ∀ rest, typeName (lexemes type.toList ++ (lexemes "; ".toList ++ rest)) =
      some (lexemes type.toList, lexemes "; ".toList ++ rest) := by
    intro rest
    have hpass : ∀ l ∈ lexemes type.toList, decide (l ≠ .mark ';') = true := fun l hl =>
      decide_eq_true (h.2.2.2 l hl).1
    rw [typeName, List.takeWhile_append_of_pos hpass, List.dropWhile_append_of_pos hpass]
    show some (lexemes type.toList ++ [], _) = _
    rw [List.append_nil]
    rfl
  have hclose : lexemes "];".toList ++ rest = .mark ']' :: (lexemes ";".toList ++ rest) := rfl
  simp only [headerLexemes, List.cons_append, List.append_assoc]
  unfold staticArray
  rw [bind_of_some (show word _ = some (name.toList, _) from rfl), bind_of_some (expect_append ..),
    bind_of_some (htype _), bind_of_some (expect_append ..),
    bind_of_some ((spells_number (d := 0) size).reads _), bind_of_some (expect_append ..),
    hclose, bind_of_some (elementsFrom_listed htexts _), bind_of_some (expect_append ..)]
  rfl

/-- The lines of an array declare it. -/
theorem declares_staticArray (hheader : IsHeader name type) (size : Nat)
    (h : Writes lines (listed texts)) (htexts : ∀ text ∈ texts, IsElement text) :
    Declares (Emit.staticArray name type size lines)
      [⟨name.toList, lexemes type.toList, size, texts.map fun text => lexemes text.toList⟩] := by
  have hlines : Writes (Emit.staticArray name type size lines) _ :=
    ((writes_header hheader size).append h.indent).append (.plain (s := "];") (by decide))
  refine ⟨hlines.oneLine, fun rest => ?_⟩
  -- the keyword is found once, at the front
  have hbody : keyword ∉ headerLexemes name type size ++ listed texts ++ lexemes "];".toList := by
    rw [List.mem_append, List.mem_append, not_or, not_or]
    exact ⟨⟨keyword_notMem_header hheader size, keyword_notMem_listed htexts⟩, by decide⟩
  have hread := staticArray_reads hheader size htexts rest
  have hrest := arrays?_append hbody rest
  rw [hlines.lexemes]
  simp only [List.cons_append, List.append_assoc] at hrest ⊢
  rw [arrays?, if_pos rfl, hread, Option.bind_eq_bind, Option.bind_some]
  show ((arrays? _).bind _) = _
  rw [hrest]
  cases arrays? rest <;> rfl

/-- The array of the items, whose declared size is their number. -/
def arrayOf (name type : String) (print : α → String) (items : List α) : StaticArray where
  name := name.toList
  type := lexemes type.toList
  size := items.length
  elements := items.map fun a => lexemes (print a).toList

section Items

variable {print : α → String} {items : List α}

/-- An array that is printed element by element is declared with these elements. -/
theorem declares_arrayOf (hheader : IsHeader name type)
    (hprint : ∀ a, Spells reader (print a) a 0 0) (h : Writes lines (listed (items.map print))) :
    Declares (Emit.staticArray name type items.length lines) [arrayOf name type print items] := by
  have harray := declares_staticArray hheader items.length h fun text htext => by
    obtain ⟨a, -, rfl⟩ := List.mem_map.1 htext
    exact (hprint a).depth
  rw [List.map_map] at harray
  exact harray

/-- The items are read back. -/
theorem read?_arrayOf (hprint : ∀ a, Spells reader (print a) a 0 0) :
    (arrayOf name type print items).read? name type reader = some items.toArray := by
  have hitem : ∀ a, readAll reader (lexemes (print a).toList) = some a := by
    intro a
    have h := (hprint a).reads []
    rw [List.append_nil] at h
    rw [readAll, h]
  have hitems : (items.map fun a => lexemes (print a).toList).mapM (readAll reader) =
      some items := by
    rw [List.mapM_map]
    induction items with
    | nil => rfl
    | cons a items ih =>
      rw [List.mapM_cons, Function.comp_apply, hitem, ih]
      rfl
  rw [StaticArray.read?, if_pos ⟨rfl, rfl⟩]
  exact congrArg (Option.map List.toArray) hitems

end Items

end Lexwright.Source

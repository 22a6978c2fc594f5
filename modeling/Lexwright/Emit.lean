import Lexwright.Compile

/-!
# `Lexwright.Emit`: tables as source text

The tables are printed as the static arrays of a module, with a function that makes a lexer of
them. Names of rules and lexical states appear only in comments.

* `Array`s of the module are given by `staticArray`: the declared length, the elements, the end.
* `Compilation.sourceLines`: the lines of the module.
* `Compilation.source`: the headers and the module, indented.
-/

set_option autoImplicit false

namespace Lexwright

open Text

namespace Emit

/-- An optional number. -/
def optional : Option Nat → String
  | some n => s!"Some({n})"
  | none => "None"

/-- Numbers separated by commas. -/
def commas (items : List String) : String := String.intercalate ", " items

/-- A pair of numbers. -/
def pair (p : Nat × Nat) : String := s!"({p.1}, {p.2})"

/-- Name of a category. -/
def category : Category → String
  | .token => "Token"
  | .skip => "Skip"
  | .more => "More"
  | .special => "Special"

/-- The lines of a static array of `size` elements. -/
def staticArray (name type : String) (size : Nat) (lines : List String) : List String :=
  s!"static {name}: [{type}; {size}] = [" :: lines.map ("    " ++ ·) ++ ["];"]

/-- The element of a rule. -/
def terminal (t : Terminal) : String :=
  s!"Terminal \x7b kind: {t.kind}, category: RuleCategory::{category t.category}, " ++
    s!"next_state: {optional t.nextState} \x7d"

/-- The element of a lexical state. -/
def lexEntry (e : LexEntry) : String :=
  s!"LexStateEntry \x7b start_row: {optional e.startRow}, eof_rule: {optional e.eofRule} \x7d"

/-- The element of a state. -/
def transition : Option Transition → String
  | some t => s!"Some(Transition \x7b class: {t.charClass}, next_row: {t.nextRow} \x7d)"
  | none => "None"

/-- The element of a class. -/
def classTest (t : ClassTest) : String :=
  let word := fun i => "0x" ++ hexWord (t.ascii.extractLsb' (64 * i) 64)
  s!"ClassTest \x7b ascii: [{word 0}, {word 1}], pages: {optional t.pageMap} \x7d"

/-- Lists of at most `n` members, one after another. -/
def chunks {α : Type} (n : Nat) (items : List α) : List (List α) :=
  match items with
  | [] => []
  | a :: rest => (a :: rest.take (n - 1)) :: chunks n (rest.drop (n - 1))
termination_by items.length
decreasing_by simp only [List.length_drop, List.length_cons]; omega

/-- The parts, indented and with an empty line between them. Empty lines are not indented. -/
def indent (width : Nat) (parts : List (List String)) : String :=
  let margin := String.ofList (List.replicate width ' ')
  let line := fun (l : String) => (if l.isEmpty then l else margin ++ l) ++ "\n"
  String.intercalate "\n" (parts.map fun part => String.join (part.map line))

/-- What the module imports. -/
def imports : List String := [
  "use nfalex_core::char_reader::CharStream;",
  "use nfalex_core::class::\x7bBitVec256, ClassTables, ClassTest\x7d;",
  "use nfalex_core::lexer::\x7bLexStateEntry, Lexer, RuleCategory, Terminal, Transition\x7d;",
  "use nfalex_core::\x7bBitVecId, PageId, RuleId, StateId\x7d;",
  ""]

/-- The function that makes a lexer of the arrays. -/
def constructor : List String := [
  "",
  "pub fn build_lexer<S: CharStream>() -> Lexer<'static, S> \x7b",
  "    Lexer::new(",
  "        &TERMINALS,",
  "        &LEX_STATES,",
  "        &ROWS,",
  "        &ROW_MEMBERS,",
  "        &ROW_RULES,",
  "        &TRANSITIONS,",
  "        &CLASSES,",
  "        ClassTables \x7b bit_vectors: &BIT_VECTORS, page_maps: &PAGE_MAPS, " ++
    "page_entries: &PAGE_ENTRIES \x7d,",
  "    )",
  "\x7d"]

end Emit

namespace Compilation

open Emit

/-- A comment on the rows of a lexical state. -/
def rowComments (c : Compilation) (id : Nat) (name : String) : List String :=
  match c.rows.lexStates[id]?.join with
  | some (first, count) =>
    s!"// lexical state {id} '{name}': rows {first}..{first + count}" ::
      (List.range' first count).map fun row =>
        let members := ((c.rows.rows[row]?).map StateSet.display).getD ""
        let kind := match c.rows.accepts[row]?.join with
          | some accept => toString accept.kind
          | none => "None"
        s!"// - row {row}: {members}, kind {kind}"
  | none => [s!"// lexical state {id} '{name}': no rows (None)"]

/-- Elements with a comment that holds their number and name. -/
def named (elements : List String) (names : List String) : List String :=
  (List.zip elements names).zipIdx.map fun e => s!"{e.1.1}, // {e.2}: {e.1.2}"

/-- The rows that have members, one a line. -/
def rowLines (members : List (List Nat)) : List String :=
  members.zipIdx.filterMap fun row =>
    if row.1.isEmpty then none
    else some s!"{commas (row.1.map toString)}, // row {row.2}"

/-- The lines of the module. -/
def sourceLines (c : Compilation) : List String :=
  let t := c.tables
  let k := t.classTables
  let rows := (List.range t.rows.size).map fun r => (t.row r).toList
  imports ++
    (c.stateNames.toList.zipIdx.flatMap fun s => c.rowComments s.2 s.1) ++
    [""] ++
    staticArray "TERMINALS" "Terminal" t.terminals.size
      (named (t.terminals.toList.map terminal) c.ruleNames.toList) ++
    staticArray "LEX_STATES" "LexStateEntry" t.lexStates.size
      (named (t.lexStates.toList.map lexEntry) c.stateNames.toList) ++
    staticArray "ROWS" "(u32, u32)" t.rows.size
      (t.rows.toList.zipIdx.map fun r => s!"{pair r.1}, // row {r.2}") ++
    staticArray "ROW_MEMBERS" "StateId" t.rowMembers.size (rowLines rows) ++
    staticArray "ROW_RULES" "Option<RuleId>" t.rowRules.size
      ((chunks 16 (t.rowRules.toList.map optional)).map fun rules => commas rules ++ ",") ++
    staticArray "TRANSITIONS" "Option<Transition>" t.transitions.size
      (t.transitions.toList.zipIdx.map fun m => s!"{transition m.1}, // state {m.2}") ++
    staticArray "CLASSES" "ClassTest" t.classes.size
      (named (t.classes.toList.map classTest) c.classNames.toList) ++
    staticArray "BIT_VECTORS" "BitVec256" k.pages.size
      (k.pages.toList.map fun p => p.debug ++ ",") ++
    staticArray "PAGE_MAPS" "(u32, u32)" k.pageMaps.size
      (k.pageMaps.toList.map fun m => pair m ++ ",") ++
    staticArray "PAGE_ENTRIES" "(PageId, BitVecId)" k.pageEntries.size
      (k.pageEntries.toList.map fun e => pair (e.page, e.bits) ++ ",") ++
    constructor

/-- The source text: the headers, if there are any, and the module. -/
def source (c : Compilation) (width : Nat) : String :=
  let headers := if c.options.headers.isEmpty then [] else [c.options.headers]
  indent width (headers ++ [c.sourceLines])

/-- The source text, if the log has no errors. -/
def source? (c : Compilation) (width : Nat) : Except BuildError String :=
  (c.checked).map (·.source width)

end Compilation

end Lexwright

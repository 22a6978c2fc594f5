/-!
# `Lexwright.Log`: messages and their counts

* `Message`: a note, a warning or an error.
* `Tally`: how many of each were issued. A tally alone serves as a log that stores nothing.
* `Log`: the messages in the order they were issued, with their tally.
-/

set_option autoImplicit false

namespace Lexwright

/-- A message of a log. `notStored` stands for all the messages of a log that keeps none. -/
inductive Message where
  | notStored
  | note (text : String)
  | warning (text : String)
  | error (text : String)
deriving DecidableEq, Repr

namespace Message

/-- The kind of the message and its text. -/
def display : Message → String
  | notStored => "The log messages were not stored"
  | note text => s!"Note   : {text}"
  | warning text => s!"Warning: {text}"
  | error text => s!"ERROR  : {text}"

/-- The text of a note. -/
def note? : Message → Option String
  | note text => some text
  | _ => none

/-- The text of a warning. -/
def warning? : Message → Option String
  | warning text => some text
  | _ => none

/-- The text of an error. -/
def error? : Message → Option String
  | error text => some text
  | _ => none

/-- Messages, one a line. -/
def displayAll (messages : List Message) : String :=
  String.intercalate "\n" (messages.map fun m => s!"- {m.display}")

end Message

/-- Numbers of messages of each kind. -/
structure Tally where
  notes : Nat := 0
  warnings : Nat := 0
  errors : Nat := 0
deriving DecidableEq, Repr

namespace Tally

/-- Counts one more message. -/
def count (t : Tally) : Message → Tally
  | .notStored => t
  | .note _ => { t with notes := t.notes + 1 }
  | .warning _ => { t with warnings := t.warnings + 1 }
  | .error _ => { t with errors := t.errors + 1 }

/-- The messages of both tallies. -/
def add (s t : Tally) : Tally :=
  ⟨s.notes + t.notes, s.warnings + t.warnings, s.errors + t.errors⟩

/-- What a log that only counts has to show. -/
def messages (_ : Tally) : List Message := [.notStored]

end Tally

/-- The messages issued so far, with their tally. -/
structure Log where
  messages : Array Message := #[]
  tally : Tally := {}
deriving DecidableEq, Repr

namespace Log

instance : Inhabited Log := ⟨{}⟩

/-- Issues one more message. What was not stored elsewhere cannot be stored here. -/
def push (log : Log) : Message → Log
  | .notStored => log
  | m => { messages := log.messages.push m, tally := log.tally.count m }

/-- Issues messages in order. -/
def pushAll (log : Log) (messages : List Message) : Log :=
  messages.foldl push log

/-- The messages of both logs, those of `log` first. -/
def append (log later : Log) : Log :=
  { messages := log.messages ++ later.messages, tally := log.tally.add later.tally }

/-- Whether no error was issued. -/
def hasNoErrors (log : Log) : Bool := log.tally.errors == 0

/-- Whether no warning was issued. -/
def hasNoWarnings (log : Log) : Bool := log.tally.warnings == 0

/-- Whether nothing was issued. -/
def isEmpty (log : Log) : Bool := log.messages.isEmpty

/-- The messages, one a line. -/
def display (log : Log) : String := Message.displayAll log.messages.toList

end Log

end Lexwright

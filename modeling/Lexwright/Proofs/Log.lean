import Lexwright.Log
import Mathlib.Data.List.Basic

/-!
# `Lexwright.Proofs.Log`: messages and their numbers

A log is asked for its numbers only, and is joined with other logs on the way.

* `Log.hasNoErrors_push`, `Log.hasNoErrors_pushAll`: when there are errors after more messages.
* `Log.messages_pushAll`: messages are stored in the order they were issued.
* `Log.Built`: the logs that there are. `Log.Built.counted` says that their numbers are those of
  their messages.
* `Log.Extends`: the later log begins with the messages of the earlier one.
-/

set_option autoImplicit false

namespace Lexwright.Log

variable {log later last : Log} {m : Message} {ms : List Message}

/-! ### Errors -/

/-- There are no errors if none is counted. -/
theorem hasNoErrors_iff : log.hasNoErrors = true ↔ log.tally.errors = 0 := beq_iff_eq

/-- One more message adds no error if it is none. -/
theorem hasNoErrors_push :
    (log.push m).hasNoErrors = true ↔ log.hasNoErrors = true ∧ m.error? = none := by
  simp only [hasNoErrors_iff]
  cases m with
  | notStored => exact (and_iff_left rfl).symm
  | note text => exact (and_iff_left rfl).symm
  | warning text => exact (and_iff_left rfl).symm
  | error text =>
    constructor
    · intro h
      exact absurd h (Nat.succ_ne_zero _)
    · intro h
      cases h.2

/-- More messages add no error if none of them is one. -/
theorem hasNoErrors_pushAll :
    (log.pushAll ms).hasNoErrors = true ↔ log.hasNoErrors = true ∧ ∀ m ∈ ms, m.error? = none := by
  unfold pushAll
  induction ms generalizing log with
  | nil => simp
  | cons m ms ih =>
    rw [List.foldl_cons, ih, hasNoErrors_push, List.forall_mem_cons, and_assoc]

/-- Messages are added one after another, so they may be added in two parts. -/
theorem pushAll_append (log : Log) (messages later : List Message) :
    log.pushAll (messages ++ later) = (log.pushAll messages).pushAll later :=
  List.foldl_append

/-! ### What was issued -/

/-- A message that can be stored is. -/
theorem messages_push (h : m ≠ .notStored) : (log.push m).messages = log.messages.push m := by
  cases m with
  | notStored => exact absurd rfl h
  | note text => rfl
  | warning text => rfl
  | error text => rfl

/-- Messages that can be stored are, in order. -/
theorem messages_pushAll (log : Log) (h : ∀ m ∈ ms, m ≠ .notStored) :
    (log.pushAll ms).messages.toList = log.messages.toList ++ ms := by
  induction ms generalizing log with
  | nil => exact (List.append_nil _).symm
  | cons m ms ih =>
    obtain ⟨hm, hms⟩ := List.forall_mem_cons.1 h
    show ((log.push m).pushAll ms).messages.toList = _
    rw [ih _ hms, messages_push hm]
    simp

/-- Behind the messages of the first log are those of the second one, and then the last one. -/
theorem drop_messages_push_append (log later : Log) (h : m ≠ .notStored) :
    ((log.append later).push m).messages.toList.drop log.messages.size =
      later.messages.toList ++ [m] := by
  rw [messages_push h]
  simp only [append, Array.toList_push, Array.toList_append, List.append_assoc]
  exact List.drop_left' Array.length_toList

/-! ### Numbers of messages -/

/-- The logs that issuing and joining messages leads to. One that is cleared is empty. -/
inductive Built : Log → Prop where
  | empty : Built {}
  | push {log : Log} (h : Built log) (m : Message) : Built (log.push m)
  | pushAll {log : Log} (h : Built log) (messages : List Message) : Built (log.pushAll messages)
  | append {log later : Log} (h : Built log) (h' : Built later) : Built (log.append later)

/-- The tally has the numbers of the messages. -/
structure Counted (log : Log) : Prop where
  notes : log.tally.notes = log.messages.toList.countP (·.note?.isSome)
  warnings : log.tally.warnings = log.messages.toList.countP (·.warning?.isSome)
  errors : log.tally.errors = log.messages.toList.countP (·.error?.isSome)

/-- No message is an error. -/
def Clean (log : Log) : Prop := ∀ m ∈ log.messages.toList, m.error? = none

/-- One more message is counted. -/
theorem Counted.push (h : log.Counted) (m : Message) : (log.push m).Counted := by
  obtain ⟨hnotes, hwarnings, herrors⟩ := h
  cases m <;>
    constructor <;>
    simp [Log.push, Tally.count, Message.note?, Message.warning?, Message.error?, *]

/-- More messages are counted. -/
theorem Counted.pushAll (h : log.Counted) (messages : List Message) :
    (log.pushAll messages).Counted := by
  induction messages generalizing log with
  | nil => exact h
  | cons m messages ih => exact ih (h.push m)

/-- A log that is added is counted. -/
theorem Counted.append (h : log.Counted) (h' : later.Counted) : (log.append later).Counted := by
  constructor
  · simp [Log.append, Tally.add, h.notes, h'.notes]
  · simp [Log.append, Tally.add, h.warnings, h'.warnings]
  · simp [Log.append, Tally.add, h.errors, h'.errors]

/-- A log counts its messages, however it was built. -/
theorem Built.counted (h : log.Built) : log.Counted := by
  induction h with
  | empty => exact ⟨rfl, rfl, rfl⟩
  | push _ m ih => exact ih.push m
  | pushAll _ messages ih => exact ih.pushAll messages
  | append _ _ ih ih' => exact ih.append ih'

/-- The number of errors tells whether a message is an error. -/
theorem Counted.hasNoErrors_iff (h : log.Counted) : log.hasNoErrors = true ↔ log.Clean := by
  rw [Log.hasNoErrors_iff, h.errors, List.countP_eq_zero]
  simp only [Clean, Option.isSome_iff_ne_none, ne_eq, not_not]

/-! ### Later logs -/

/-- The later log has the messages of the earlier one, and then some more. -/
def Extends (log later : Log) : Prop := ∃ messages, later = log.pushAll messages

/-- A message may be added before or after the log that it is added to. -/
theorem append_push (log later : Log) (m : Message) :
    log.append (later.push m) = (log.append later).push m := by
  cases m <;> simp [append, push, Tally.count, Tally.add, Nat.add_assoc]

/-- The same for more messages. -/
theorem append_pushAll (log later : Log) (messages : List Message) :
    log.append (later.pushAll messages) = (log.append later).pushAll messages := by
  induction messages generalizing later with
  | nil => rfl
  | cons m messages ih =>
    show log.append ((later.push m).pushAll messages) = ((log.append later).push m).pushAll messages
    rw [ih, append_push]

/-- An empty log adds nothing. -/
theorem append_empty (log : Log) : log.append {} = log := by
  simp [append, Tally.add]

namespace Extends

/-- A log extends itself. -/
theorem refl (log : Log) : log.Extends log := ⟨[], rfl⟩

/-- What extends a later log extends an earlier one. -/
theorem trans (h : log.Extends later) (h' : later.Extends last) : log.Extends last := by
  obtain ⟨messages, rfl⟩ := h
  obtain ⟨messages', rfl⟩ := h'
  exact ⟨messages ++ messages', (pushAll_append log messages messages').symm⟩

/-- Adding messages extends a log. -/
theorem pushAll (log : Log) (messages : List Message) : log.Extends (log.pushAll messages) :=
  ⟨messages, rfl⟩

/-- Adding a message extends a log. -/
theorem push (log : Log) (m : Message) : log.Extends (log.push m) := ⟨[m], rfl⟩

/-- What extends a log that is counted is counted. -/
theorem counted (h : log.Extends later) (hlog : log.Counted) : later.Counted := by
  obtain ⟨messages, rfl⟩ := h
  exact hlog.pushAll messages

/-- The messages of a log stay where they are, at the start of those of a later one. -/
theorem messages_prefix (h : log.Extends later) :
    log.messages.toList <+: later.messages.toList := by
  obtain ⟨messages, rfl⟩ := h
  induction messages generalizing log with
  | nil => exact List.prefix_refl _
  | cons m messages ih =>
    have hpush : log.messages.toList <+: (log.push m).messages.toList := by
      cases m <;> simp [Log.push]
    exact hpush.trans ih

/-- A log that was begun afresh extends every log behind which it is put. -/
theorem append (h : ({} : Log).Extends later) (log : Log) : log.Extends (log.append later) := by
  obtain ⟨messages, rfl⟩ := h
  exact ⟨messages, by rw [append_pushAll, append_empty]⟩

end Extends

end Lexwright.Log

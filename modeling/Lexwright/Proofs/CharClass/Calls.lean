import Lexwright.Proofs.CharClass.Membership

/-!
# `Lexwright.Proofs.CharClass.Calls`: classes keep their meaning while a compiler goes on

A user asks one compiler for tests, for numbers of tests and for numbers of pages, in any order.

* `ClassCompiler.Call`, `ClassCompiler.Answer`: what is asked, and what is answered.
* `ClassCompiler.extends_answerAll`: no call changes what earlier answers refer to.
* `ClassCompiler.contains_answerAll`: with the tables at the end of the calls, the class of every
  answer holds exactly the characters of the set that was asked for.
-/

set_option autoImplicit false

namespace Lexwright.ClassCompiler

open Text

/-- What a user may ask of a compiler: the test of a set, the number of that test, or the number of
a page of bits. -/
inductive Call where
  | compile (set : Segments)
  | internClass (set : Segments)
  | internPage (bits : Page)

/-- What a compiler answers: a test, the number of a test, or the number of a page. -/
inductive Answer where
  | test (test : ClassTest)
  | number (id : Nat)
  | page (id : Nat)

/-- The set whose class is asked for. -/
def Call.set? : Call → Option Segments
  | compile set | internClass set => some set
  | internPage _ => none

/-- The class of an answer: a number denotes the test that the compiler stores under it. -/
def Answer.test? (k : ClassCompiler) : Answer → Option ClassTest
  | test t => some t
  | number id => k.classes.get? id
  | page _ => none

/-- Answers one call. -/
def answer (k : ClassCompiler) : Call → ClassCompiler × Answer
  | .compile set => ((k.compile set).1, .test (k.compile set).2)
  | .internClass set => ((k.internClass set).1, .number (k.internClass set).2)
  | .internPage bits => ((k.internPage bits).1, .page (k.internPage bits).2)

/-- Answers calls one after another. -/
def answerAll (k : ClassCompiler) : List Call → ClassCompiler × List Answer
  | [] => (k, [])
  | call :: calls =>
    let (k, found) := k.answer call
    let (k, answers) := k.answerAll calls
    (k, found :: answers)

variable {k k' : ClassCompiler} {call : Call} {set : Segments}

/-- One call only adds to the tables. -/
theorem extends_answer (k : ClassCompiler) (call : Call) : k.Extends (k.answer call).1 := by
  cases call with
  | compile set => exact extends_compile k set
  | internClass set => exact extends_internClass k set
  | internPage bits => exact ⟨Interner.extends_intern _ _, .refl _, .refl _⟩

/-- Calls only add to the tables, by induction on the calls. -/
theorem extends_answerAll (k : ClassCompiler) (calls : List Call) :
    k.Extends (k.answerAll calls).1 := by
  induction calls generalizing k with
  | nil => exact .refl k
  | cons call calls ih => exact (extends_answer k call).trans (ih _)

/-- The class of an answer holds the characters of the set, whatever the compiler answers
afterwards. -/
theorem contains_answer (hcall : call.set? = some set)
    (hset : ∀ seg ∈ set.toList, seg.last ≤ maxCode) (hext : (k.answer call).1.Extends k') :
    ∃ test, (k.answer call).2.test? k' = some test ∧
      ∀ c : Char, test.contains k'.tables c = true ↔ set.Covers c.toNat := by
  cases call with
  | compile s =>
    cases hcall
    exact ⟨_, rfl, contains_compile hset hext⟩
  | internClass s =>
    cases hcall
    -- The test is compiled first, and is stored by what follows.
    have htest := hext.classes _ _ (get?_internClass k set)
    exact ⟨_, htest, contains_compile hset
      ((extends_internClass_of_compile k set).trans hext)⟩
  | internPage bits => cases hcall

/-- Whatever a compiler is asked, with its tables at the end the class that it answers to any of
the calls holds a character exactly when one of the segments given to that call does. -/
theorem contains_answerAll (k : ClassCompiler) (calls : List Call) (i : Nat)
    (hcall : calls[i]? = some call) (hasked : call.set? = some set)
    (hset : ∀ seg ∈ set.toList, seg.last ≤ maxCode) :
    ∃ found test, (k.answerAll calls).2[i]? = some found ∧
      found.test? (k.answerAll calls).1 = some test ∧
      ∀ c : Char, test.contains (k.answerAll calls).1.tables c = true ↔
        ∃ seg ∈ set.toList, seg.first ≤ c.toNat ∧ c.toNat ≤ seg.last := by
  induction calls generalizing k i with
  | nil => cases hcall
  | cons first calls ih =>
    cases i with
    | zero =>
      cases hcall
      -- The calls behind this one only extend the compiler.
      obtain ⟨test, htest, hcontains⟩ := contains_answer hasked hset
        (extends_answerAll (k.answer call).1 calls)
      exact ⟨(k.answer call).2, test, rfl, htest, hcontains⟩
    | succ i => exact ih (k.answer first).1 i hcall

/-- The segments of a call may overlap, and a later call may share its pages: the class of `é` to
`ǿ` and `ÿ` to `Ā` holds `Ā` at the end, and not the `è` before it. -/
theorem contains_answerAll_overlapping :
    let s : Segments := Segments.insertBounds (Segments.insertBounds .empty 0xe9 0x1ff) 0xff 0x100
    let t : Segments := Segments.insertBounds .empty 0x100 0x1ff
    let calls : List Call := [.internClass s, .compile t, .internPage (bitRange 256 0 255)]
    (∀ seg ∈ s.toList, seg.last ≤ maxCode) ∧
      ∃ found test, (answerAll {} calls).2[0]? = some found ∧
        found.test? (answerAll {} calls).1 = some test ∧
        test.contains (answerAll {} calls).1.tables 'Ā' = true ∧
        ¬test.contains (answerAll {} calls).1.tables 'è' = true := by
  intro s t calls
  have hset : ∀ seg ∈ s.toList, seg.last ≤ maxCode := by decide
  obtain ⟨found, test, hfound, htest, hcontains⟩ := contains_answerAll {} calls 0 rfl rfl hset
  refine ⟨hset, found, test, hfound, htest, ?_, ?_⟩
  · rw [hcontains]
    decide
  · rw [hcontains]
    decide

end Lexwright.ClassCompiler

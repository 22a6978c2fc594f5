import Lexwright.Proofs.Lexer.Scan
import Lexwright.Proofs.Lookups

/-!
# `Lexwright.Proofs.Lexer.Generations`: a step does not depend on the steps before it

A lexer keeps its stamps from one step to the next, from one token to the next, and from one stream
to the next. A stamp that an earlier step left is harmless as long as it is not the current
generation, and the generations are words: after all the words but 0 they begin again.

* `Tables.Enters`: the rows to which the active states lead.
* `Tables.step_entered`: what a step finds, for any marks that are sound.
* `Tables.marksAfter`: the marks that steps leave. `toNat_generation_marksAfter` is the generation
  that they have reached.
* `Lexer.step_exact`: what a step of a lexer finds, whatever its earlier steps were.
-/

set_option autoImplicit false

namespace Lexwright

/-- Number of generations: all the words but 0. -/
def Marks.rounds : Nat := UInt32.size - 1

/-- There are 2³² - 1 generations: zero is left out. -/
theorem Marks.rounds_eq : rounds = 4294967295 := rfl

namespace Tables

variable {t : Tables} {c : Char} {p r n : Nat} {marks : Marks}

/-! ### One step -/

/-- An active state leads to the row, and its class holds the character. -/
def Enters (t : Tables) (active : Array Nat) (c : Char) (r : Nat) : Prop :=
  ∃ p ∈ active, ∃ move, t.transitions[p]? = some (some move) ∧
    t.classContains move.charClass c = true ∧ move.nextRow = r

/-- A state moves on a character where the class of its move contains it. -/
theorem target?_eq_some_iff : t.target? p c = some r ↔ ∃ move,
    t.transitions[p]? = some (some move) ∧ t.classContains move.charClass c = true ∧
      move.nextRow = r := by
  unfold target?
  cases ht : t.transitions[p]? with
  | none => simp
  | some found =>
    cases found with
    | none => simp
    | some move => simp

/-- The rule of a row is the lowest one that the row accepts. -/
theorem lowest_rowRule (r : Nat) : Lowest (fun id => t.rowRule r = some id) (t.rowRule r) := by
  cases hrule : t.rowRule r with
  | none => exact fun id hid => nomatch hid
  | some id =>
    refine ⟨rfl, fun id' hid => ?_⟩
    cases hid
    exact Nat.le_refl id

/-- A step lists the members of the rows that are entered, each once, and finds the lowest rule of
these rows. The marks stay sound. -/
theorem step_entered (hfits : ∀ {r q : Nat}, q ∈ t.row r → q < n) (h : marks.Sound n)
    (active : Array Nat) (c : Char) :
    Touched n (t.step marks active c).1 ∧
      (∀ q, q ∈ (t.step marks active c).1.2 ↔ ∃ r, t.Enters active c r ∧ q ∈ t.row r) ∧
      Lowest (fun id => ∃ r, t.Enters active c r ∧ t.rowRule r = some id)
        (t.step marks active c).2 := by
  obtain ⟨htouched, hmem, hlowest⟩ :=
    step_eq (c := c) hfits h active fun _ _ r _ => lowest_rowRule r
  have hrows : ∀ P : Nat → Prop, (∃ p ∈ active, ∃ r, t.target? p c = some r ∧ P r) ↔
      ∃ r, t.Enters active c r ∧ P r := by
    intro P
    simp only [target?_eq_some_iff]
    constructor
    · intro ⟨p, hp, r, hmove, hr⟩
      exact ⟨r, ⟨p, hp, hmove⟩, hr⟩
    · intro ⟨r, ⟨p, hp, hmove⟩, hr⟩
      exact ⟨p, hp, r, hmove, hr⟩
  exact ⟨htouched, fun q => (hmem q).trans (hrows _), hlowest.congr fun id => hrows _⟩

/-! ### Many steps -/

/-- The marks that steps leave, each with the states that are active then and a character. -/
def marksAfter (t : Tables) (marks : Marks) (earlier : List (Array Nat × Char)) : Marks :=
  earlier.foldl (fun marks x => (t.step marks x.1 x.2).1.1) marks

/-- The marks after a first and a last step and those between them. -/
theorem marks_step_marksAfter_cons (t : Tables) (marks : Marks) (x y : Array Nat × Char)
    (earlier : List (Array Nat × Char)) :
    (t.step (t.marksAfter marks (x :: earlier)) y.1 y.2).1.1 =
      t.marksAfter (t.step marks x.1 x.2).1.1 (earlier ++ [y]) := by
  unfold marksAfter
  rw [List.foldl_append]
  rfl

/-- Steps made before leave the marks sound. -/
theorem sound_marksAfter (hfits : ∀ {r q : Nat}, q ∈ t.row r → q < n) (h : marks.Sound n)
    (earlier : List (Array Nat × Char)) : (t.marksAfter marks earlier).Sound n := by
  induction earlier generalizing marks with
  | nil => exact h
  | cons x earlier ih => exact ih (step_entered hfits h x.1 x.2).1.sound

/-- Marking a state keeps the generation. -/
theorem generation_activate (found : Marks × Array Nat) (q : Nat) :
    (activate found q).1.generation = found.1.generation := by
  unfold activate
  split
  · rfl
  · rfl

/-- Marking the states of a row keeps the generation. -/
theorem generation_foldl_activate (members : List Nat) (found : Marks × Array Nat) :
    (members.foldl activate found).1.generation = found.1.generation := by
  induction members generalizing found with
  | nil => rfl
  | cons q members ih => exact (ih _).trans (generation_activate found q)

/-- Following the move of one state keeps the generation. -/
theorem generation_stepState (t : Tables) (c : Char)
    (found : (Marks × Array Nat) × Option Nat) (p : Nat) :
    (t.stepState c found p).1.1.generation = found.1.1.generation := by
  unfold stepState
  split
  · rw [← Array.foldl_toList]
    exact generation_foldl_activate _ _
  · rfl

/-- Following the moves of all active states keeps the generation. -/
theorem generation_foldl_stepState (t : Tables) (c : Char) (states : List Nat)
    (found : (Marks × Array Nat) × Option Nat) :
    (states.foldl (t.stepState c) found).1.1.generation = found.1.1.generation := by
  induction states generalizing found with
  | nil => rfl
  | cons p states ih => exact (ih _).trans (generation_stepState t c found p)

/-- Within a step, the generation is the one that it begins with. -/
theorem generation_step (t : Tables) (marks : Marks) (active : Array Nat) (c : Char) :
    (t.step marks active c).1.1.generation = marks.renew.generation := by
  unfold step
  rw [← Array.foldl_toList]
  exact generation_foldl_stepState t c _ _

/-- A new round takes the next generation; the one after the last is 1. -/
theorem toNat_generation_renew (marks : Marks) :
    marks.renew.generation.toNat = marks.generation.toNat % Marks.rounds + 1 := by
  have hlt := marks.generation.toNat_lt
  rw [Marks.rounds_eq]
  unfold Marks.renew
  split
  · rename_i hzero
    have hnat := congrArg UInt32.toNat hzero
    rw [UInt32.toNat_add, UInt32.toNat_one, UInt32.toNat_zero] at hnat
    show (1 : UInt32).toNat = _
    rw [UInt32.toNat_one]
    omega
  · rename_i hzero
    have hnat : (marks.generation + 1).toNat ≠ 0 := fun heq => hzero (UInt32.toNat_inj.1 heq)
    show (marks.generation + 1).toNat = _
    rw [UInt32.toNat_add, UInt32.toNat_one] at hnat ⊢
    omega

/-- The generation after a step: the next one, or the first one again. -/
theorem toNat_generation_step (t : Tables) (marks : Marks) (active : Array Nat) (c : Char) :
    (t.step marks active c).1.1.generation.toNat = marks.generation.toNat % Marks.rounds + 1 := by
  rw [generation_step, toNat_generation_renew]

/-- The generations go round, one for each step. -/
theorem toNat_generation_marksAfter (t : Tables) (earlier : List (Array Nat × Char))
    (h : marks.generation.toNat = n % Marks.rounds + 1) :
    (t.marksAfter marks earlier).generation.toNat =
      (n + earlier.length) % Marks.rounds + 1 := by
  induction earlier generalizing marks n with
  | nil => exact h
  | cons x earlier ih =>
    have hstep := toNat_generation_step t marks x.1 x.2
    have hnext : (t.step marks x.1 x.2).1.1.generation.toNat = (n + 1) % Marks.rounds + 1 := by
      rw [hstep, h, Nat.mod_add_mod]
    rw [List.length_cons, Nat.add_comm earlier.length, ← Nat.add_assoc]
    exact ih hnext

/-- As many steps as there are generations lead back to the same one. -/
theorem generation_marksAfter_of_dvd (t : Tables) {earlier : List (Array Nat × Char)}
    (hmarks : marks.generation.toNat ≠ 0) (hlength : Marks.rounds ∣ earlier.length) :
    (t.marksAfter marks earlier).generation = marks.generation := by
  have hlt := marks.generation.toNat_lt
  have hgeneration : marks.generation.toNat =
      (marks.generation.toNat - 1) % Marks.rounds + 1 := by
    rw [Marks.rounds_eq]
    omega
  obtain ⟨rounds, hrounds⟩ := hlength
  rw [← UInt32.toNat_inj, toNat_generation_marksAfter t earlier hgeneration, hrounds,
    Nat.add_mul_mod_self_left]
  exact hgeneration.symm

end Tables

/-! ### The steps of a lexer -/

namespace Lexer

variable {lexicon : Lexicon} {options : Options} {k : Compilation} {σ : Type} [CharStream σ]

omit [CharStream σ] in
/-- The first step in a lexical state finds the first rule that has the character as a text. -/
theorem isFirst_step (hk : compile lexicon options = .ok k) {i : Nat}
    (hi : i < lexicon.states.length) (c : Char) :
    ∃ entry, k.tables.lexStates[i]? = some entry ∧
      ∀ {marks : Marks}, marks.Sound k.tables.transitions.size → lexicon.IsFirst i [c]
        (k.tables.step marks ((entry.startRow.map k.tables.row).getD #[]) c).2 := by
  obtain ⟨himplements, hserves⟩ := serves_of_compile hk
  rw [← himplements.stateCount] at hi
  have hinfo := Array.getElem?_eq_getElem hi
  obtain ⟨entry, hentry, -, hfollows⟩ := hserves.follows_start hinfo
  have htracks := Automaton.tracks_startSet hinfo
  rw [Engine.startSet_ofAutomaton hinfo] at htracks
  refine ⟨entry, hentry, fun hmarks => ?_⟩
  obtain ⟨-, -, -, hlowest⟩ := hserves.step himplements hmarks hfollows
    (htracks.inLexState himplements hinfo) c
  exact (htracks.step himplements.separate).isFirst himplements hinfo hlowest

/-- However many steps a lexer took before, and on whatever streams: a step lists the members of
the rows that are entered, each once, and finds the lowest rule of these rows. Where the active
states exist, no look-up of the step is out of range. -/
theorem step_exact (hk : compile lexicon options = .ok k) {lx : Lexer σ} (hlx : lx.Built k.tables)
    (earlier : List (Array Nat × Char)) (active : Array Nat) (c : Char) :
    let marks := k.tables.marksAfter lx.marks earlier
    let found := k.tables.step marks active c
    found.1.2.toList.Nodup ∧
      (∀ q, q ∈ found.1.2 ↔ ∃ r, k.tables.Enters active c r ∧ q ∈ k.tables.row r) ∧
      Lowest (fun id => ∃ r, k.tables.Enters active c r ∧ k.tables.rowRule r = some id) found.2 ∧
      ((∀ q ∈ active, q < k.tables.transitions.size) →
        k.tables.step? marks active c = some found) := by
  intro marks found
  have hclosed := closed_of_compile hk
  have hfits : ∀ {r q : Nat}, q ∈ k.tables.row r → q < k.tables.transitions.size :=
    fun hq => hclosed.lt_of_mem_row hq
  have hmarks := Tables.sound_marksAfter hfits (hlx.ready hfits).sound earlier
  obtain ⟨htouched, hmem, hlowest⟩ := Tables.step_entered hfits hmarks active c
  exact ⟨htouched.nodup, hmem, hlowest, fun hactive => (hclosed.step? hmarks.size hactive).1⟩

/-- A step of the sample lexicon when the generations have begun again twice. The current one is
that of the first step, which activated the same states. -/
theorem step_exact_words : ∃ k entry, compile Lexicon.words Options.quiet = .ok k ∧
    k.tables.lexStates[0]? = some entry ∧
    let lx : Lexer Reader := ofTables k.tables
    let active := (entry.startRow.map k.tables.row).getD #[]
    let earlier := (active, 'a') :: List.replicate (2 * Marks.rounds - 1) (#[], 'a')
    let first := k.tables.step lx.marks active 'a'
    let found := k.tables.step (k.tables.marksAfter lx.marks earlier) active 'a'
    UInt32.size < earlier.length ∧ found.1.1.generation = first.1.1.generation ∧
      found.1.2.toList.Nodup ∧ (∀ q, q ∈ found.1.2 ↔ q ∈ first.1.2) ∧
      first.2 = some 0 ∧ found.2 = some 0 := by
  obtain ⟨k, hk⟩ := exists_compile rfl hasNoErrors_words rfl
  obtain ⟨entry, hentry, hisFirst⟩ :=
    isFirst_step hk (by decide : 0 < Lexicon.words.states.length) 'a'
  have hlexeme : Lexicon.words.Lexeme 0 0 _ ['a'] := ⟨rfl, by decide, by decide,
    Regex.matches_seq.2 ⟨['a'], [], rfl, Regex.matches_char 'a', [], [], rfl,
      Regex.matches_repeated.2 ⟨0, trivial, rfl⟩, rfl⟩⟩
  have hrule : ∀ {rule : Option Nat}, Lexicon.words.IsFirst 0 ['a'] rule → rule = some 0 := by
    intro rule h
    cases rule with
    | none => exact absurd hlexeme (h 0 _)
    | some id =>
      obtain ⟨_, -, hle⟩ := h
      rw [Nat.le_zero.1 (hle _ _ hlexeme).1]
  refine ⟨k, entry, hk, hentry, ?_⟩
  -- Only the number of the steps matters, and they are never carried out.
  have hrest : (List.replicate (2 * Marks.rounds - 1) ((#[], 'a') : Array Nat × Char)).length =
      2 * Marks.rounds - 1 := List.length_replicate
  generalize List.replicate (2 * Marks.rounds - 1) ((#[], 'a') : Array Nat × Char) = rest
    at hrest ⊢
  intro lx active earlier first found
  have hlx : lx.Built k.tables := .ofTables
  have hfits : ∀ {r q : Nat}, q ∈ k.tables.row r → q < k.tables.transitions.size :=
    fun hq => (closed_of_compile hk).lt_of_mem_row hq
  have hmarks := Tables.sound_marksAfter hfits (hlx.ready hfits).sound
  obtain ⟨-, hmem, -⟩ := step_exact hk hlx [] active 'a'
  obtain ⟨hnodup, hmem', -⟩ := step_exact hk hlx earlier active 'a'
  refine ⟨?_, ?_, hnodup, fun q => (hmem' q).trans (hmem q).symm, hrule (hisFirst (hmarks [])),
    hrule (hisFirst (hmarks earlier))⟩
  · rw [List.length_cons, hrest]
    decide
  · have hfirst : first.1.1.generation.toNat = 0 % Marks.rounds + 1 :=
      Tables.toNat_generation_step k.tables lx.marks active 'a'
    have hlast : found.1.1 = k.tables.marksAfter first.1.1 (rest ++ [(active, 'a')]) :=
      k.tables.marks_step_marksAfter_cons lx.marks (active, 'a') (active, 'a') rest
    have hne : first.1.1.generation.toNat ≠ 0 := by
      rw [hfirst]
      decide
    have hrounds : Marks.rounds ∣ (rest ++ [(active, 'a')]).length := by
      rw [List.length_append, hrest, List.length_singleton, Marks.rounds_eq]
      decide
    exact (congrArg Marks.generation hlast).trans
      (Tables.generation_marksAfter_of_dvd k.tables hne hrounds)

end Lexer

end Lexwright

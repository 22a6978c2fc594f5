import Lexwright.Proofs.Automaton.Errors

/-!
# `Lexwright.Proofs.Automaton.Reports`: the issues that the log tells of

What is wrong with a node is found again in every copy of the node, and reported once. So the
messages are not those of the findings one by one, but each finding has a message, and there is no
other message.

* `Builder.Accounts`: the log tells of these issues and of no others.
* `Builder.accounts_ofLexicon`: the log of a builder tells of what is wrong with the labels, the
  names and the rules, `Lexicon.faults`.
* `Issue.opens_text`: how the wording of an issue begins.
* `Issue.exists_of_message_eq`: only a recursive reference has the message of one.
-/

set_option autoImplicit false

namespace Lexwright

/-! ### The log of a builder -/

/-- An issue is stored as a message of its own. -/
theorem Issue.message_ne_notStored (issue : Issue) (pos : Option Pos) :
    issue.message pos ≠ .notStored := by
  unfold message
  split <;> exact fun h => nomatch h

/-- What is wrong with a rule and with its expression. -/
def ResolvedRule.faults (r : ResolvedRule) : List Issue := r.issues ++ r.findings.map (·.issue)

namespace Builder

variable {found : Log × Std.HashSet (Site × Issue)} {issues : List Issue}

/-- The log has a message of every issue, and no other message. What counts as reported is among
the issues. -/
structure Accounts (found : Log × Std.HashSet (Site × Issue)) (issues : List Issue) : Prop where
  told : ∀ issue ∈ issues, ∃ pos, issue.message pos ∈ found.1.messages.toList
  origin : ∀ m ∈ found.1.messages.toList, ∃ issue ∈ issues, ∃ pos, m = issue.message pos
  reported : ∀ x ∈ found.2, x.2 ∈ issues

/-- Messages about issues account for these issues. -/
theorem accounts_pushAll (h : Accounts found issues) (more : List (Option Pos × Issue)) :
    Accounts (found.1.pushAll (more.map fun x => x.2.message x.1), found.2)
      (issues ++ more.map (·.2)) := by
  have hstored : ∀ m ∈ more.map fun x => x.2.message x.1, m ≠ .notStored := fun m hm => by
    obtain ⟨x, -, rfl⟩ := List.mem_map.1 hm
    exact x.2.message_ne_notStored x.1
  have hmessages := Log.messages_pushAll found.1 hstored
  refine ⟨fun issue hissue => ?_, fun m hm => ?_, fun x hx =>
    List.mem_append_left _ (h.reported x hx)⟩
  · rw [hmessages]
    rcases List.mem_append.1 hissue with hissue | hissue
    · obtain ⟨pos, hpos⟩ := h.told issue hissue
      exact ⟨pos, List.mem_append_left _ hpos⟩
    · obtain ⟨x, hx, rfl⟩ := List.mem_map.1 hissue
      exact ⟨x.1, List.mem_append_right _ (List.mem_map.2 ⟨x, hx, rfl⟩)⟩
  · rw [hmessages] at hm
    rcases List.mem_append.1 hm with hm | hm
    · obtain ⟨issue, hissue, pos, heq⟩ := h.origin m hm
      exact ⟨issue, List.mem_append_left _ hissue, pos, heq⟩
    · obtain ⟨x, hx, rfl⟩ := List.mem_map.1 hm
      exact ⟨x.2, List.mem_append_right _ (List.mem_map_of_mem hx), x.1, rfl⟩

/-- A finding is accounted for, by its own message or by an earlier one for the same place. -/
theorem accounts_reportFinding (h : Accounts found issues) (f : Finding) :
    Accounts (reportFinding found f) (issues ++ [f.issue]) := by
  unfold reportFinding
  split
  · rename_i hmem
    -- The issue was reported of the node, so it is one of those that the log tells of.
    have hissue : f.issue ∈ issues := h.reported (f.site, f.issue) (by simpa using hmem)
    have hsame : ∀ issue, issue ∈ issues ++ [f.issue] ↔ issue ∈ issues := fun issue => by
      rw [List.mem_append, List.mem_singleton, or_iff_left_of_imp]
      exact fun heq => heq ▸ hissue
    refine ⟨fun issue hin => h.told issue ((hsame issue).1 hin), fun m hm => ?_, fun x hx =>
      (hsame _).2 (h.reported x hx)⟩
    obtain ⟨issue, hin, pos, heq⟩ := h.origin m hm
    exact ⟨issue, (hsame issue).2 hin, pos, heq⟩
  · have hpush := accounts_pushAll h [(f.pos, f.issue)]
    refine ⟨hpush.told, hpush.origin, fun x hx => ?_⟩
    rcases Std.HashSet.mem_insert.1 hx with heq | hx
    · rw [← eq_of_beq heq]
      exact List.mem_append_right _ (List.mem_singleton.2 rfl)
    · exact hpush.reported x hx

/-- Where each step adds its issues, a run adds those of all its steps. -/
theorem foldl_accounts {σ α : Type} (R : σ → List Issue → Prop) {step : σ → α → σ}
    (faults : α → List Issue)
    (hstep : ∀ {s issues} a, R s issues → R (step s a) (issues ++ faults a))
    {s : σ} (h : R s issues) (as : List α) :
    R (as.foldl step s) (issues ++ as.flatMap faults) := by
  induction as generalizing s issues with
  | nil =>
    rw [List.flatMap_nil, List.append_nil]
    exact h
  | cons a as ih =>
    rw [List.flatMap_cons, ← List.append_assoc]
    exact ih (hstep a h)

/-- All the faults of a rule are accounted for. -/
theorem accounts_reportRule (h : Accounts found issues) (r : ResolvedRule) :
    Accounts (reportRule found r) (issues ++ r.faults) := by
  have hissues := accounts_pushAll h (r.issues.map (r.pos, ·))
  simp only [List.map_map, Function.comp_def, List.map_id'] at hissues
  have hfindings := foldl_accounts Accounts (fun f => [f.issue])
    (fun f h => accounts_reportFinding h f) hissues r.findings
  rw [← List.map_eq_flatMap, List.append_assoc] at hfindings
  exact hfindings

/-- Laying out lexical states tells of what is wrong with their rules. -/
theorem accounts_addStates {b : Builder} (h : Accounts (b.log, b.reported) issues)
    (states : List (LexState × Nat)) :
    Accounts ((b.addStates states).log, (b.addStates states).reported)
      (issues ++ states.flatMap fun s =>
        (rulesOf b.env s.2 s.1).flatMap ResolvedRule.faults) := by
  -- The environment, against which the later rules are resolved, stays the same.
  have hstep : ∀ {b' : Builder} {issues : List Issue} (s : LexState × Nat),
      b'.env = b.env ∧ Accounts (b'.log, b'.reported) issues →
      (b'.addState s.2 s.1).1.env = b.env ∧
        Accounts ((b'.addState s.2 s.1).1.log, (b'.addState s.2 s.1).1.reported)
          (issues ++ (rulesOf b.env s.2 s.1).flatMap ResolvedRule.faults) := by
    intro b' issues s ⟨henv, h⟩
    refine ⟨henv, ?_⟩
    rw [← henv]
    exact foldl_accounts Accounts ResolvedRule.faults (fun r h => accounts_reportRule h r) h _
  exact (foldl_accounts
    (fun (b' : Builder) issues => b'.env = b.env ∧ Accounts (b'.log, b'.reported) issues)
    (fun s => (rulesOf b.env s.2 s.1).flatMap ResolvedRule.faults) hstep ⟨rfl, h⟩ states).2

end Builder

/-- What is wrong with the labels, the names and the rules of a lexicon. -/
def Lexicon.faults (lexicon : Lexicon) (options : Options) : List Issue :=
  (lexicon.labels.2 ++ lexicon.stateNames.2).map (·.2) ++
    lexicon.states.zipIdx.flatMap fun s =>
      (Builder.rulesOf (Builder.ofLexicon lexicon options).env s.2 s.1).flatMap ResolvedRule.faults

/-- The log of an automaton accounts for all the faults of its lexicon. -/
theorem Builder.accounts_ofLexicon (lexicon : Lexicon) (options : Options) :
    Accounts (((ofLexicon lexicon options).addStates lexicon.states.zipIdx).log,
      ((ofLexicon lexicon options).addStates lexicon.states.zipIdx).reported)
      (lexicon.faults options) := by
  have hnone : Accounts ({}, ∅) [] :=
    ⟨fun issue h => absurd h List.not_mem_nil, fun m h => absurd h List.not_mem_nil,
      fun x h => absurd h Std.HashSet.not_mem_empty⟩
  exact accounts_addStates (accounts_pushAll hnone (lexicon.labels.2 ++ lexicon.stateNames.2)) _

/-! ### The wording of an issue -/

/-- The text begins with the letters. -/
def Opens (start : List Char) (text : String) : Prop := start <+: text.toList

instance (start : List Char) (text : String) : Decidable (Opens start text) :=
  inferInstanceAs (Decidable (start <+: text.toList))

/-- A text opens as its first part does. -/
theorem Opens.append {start : List Char} {s t : String} (h : Opens start s) :
    Opens start (s ++ t) := by
  unfold Opens
  rw [String.toList_append]
  exact h.trans (List.prefix_append _ _)

/-- Whether the character may stand in a position before a text. -/
def inPosition (c : Char) : Bool := c.isDigit || c == ':' || c == ' '

/-- Without the position that it begins with, a text is the same. -/
theorem dropWhile_located (pos : Option Pos) (text : String) :
    (located pos text).toList.dropWhile inPosition = text.toList.dropWhile inPosition := by
  have hdigits : ∀ n : Nat, ∀ c ∈ (toString n).toList, inPosition c = true := fun n c hc => by
    rw [show toString n = n.repr from rfl, Nat.toList_repr] at hc
    simp [inPosition, Nat.isDigit_of_mem_toDigits (by decide) (by decide) hc]
  cases pos with
  | none => rfl
  | some p =>
    have htext : (located (some p) text).toList =
        ((toString p.line).toList ++ [':'] ++ (toString p.col).toList ++ [':', ' ']) ++
          text.toList := by
      show (toString p.line ++ ":" ++ toString p.col ++ ": " ++ text).toList = _
      simp only [String.toList_append]
      rfl
    rw [htext, List.dropWhile_append_of_pos]
    intro c hc
    simp only [List.mem_append, List.mem_cons, List.not_mem_nil, or_false] at hc
    rcases hc with ((hc | rfl) | hc) | rfl | rfl
    · exact hdigits _ c hc
    · rfl
    · exact hdigits _ c hc
    · rfl
    · rfl

namespace Issue

/-- The three characters with which the wording begins. -/
def opening : Issue → List Char
  | noStates => ['t', 'h', 'e']
  | tooManyStates _ => ['t', 'o', 'o']
  | duplicateLabel _ => ['l', 'a', 'b']
  | duplicateState _ | severalEofRules _ | searchStopped _ _ => ['l', 'e', 'x']
  | ordinalOrder _ _ _ | unknownState _ _ | reservedKind _ | matchesEmpty _ | neverMatched _ =>
    ['r', 'u', 'l']
  | misplacedEof => ['<', 'E', 'O']
  | invalidRange _ _ | invalidRepetition _ _ => ['i', 'n', 'v']
  | emptyClass _ => ['c', 'h', 'a']
  | recursiveReference _ => ['r', 'e', 'c']
  | undefinedReference _ => ['u', 'n', 'd']
  | excessiveRepetition _ _ => ['r', 'e', 'p']

/-- The text of an issue opens with words of its own. -/
theorem opens_text (issue : Issue) : Opens issue.opening issue.text := by
  have hrule : Opens ['r', 'u', 'l'] "rule " := by decide
  have hstate : Opens ['l', 'e', 'x'] "lexical state '" := by decide
  cases issue with
  | noStates => decide
  | misplacedEof => decide
  | duplicateState name => exact hstate.append.append
  | severalEofRules name => exact hstate.append.append
  | searchStopped name limit => exact hstate.append.append.append.append
  | ordinalOrder rule ordinal previous => exact hrule.append.append.append.append.append
  | unknownState rule next => exact hrule.append.append.append.append
  | reservedKind rule => exact hrule.append.append
  | matchesEmpty rule => exact hrule.append.append
  | neverMatched rule => exact hrule.append.append
  | tooManyStates count =>
    have h : Opens ['t', 'o', 'o'] "too many lexical states (" := by decide
    exact h.append.append
  | duplicateLabel label =>
    have h : Opens ['l', 'a', 'b'] "label '" := by decide
    exact h.append.append
  | invalidRange first last =>
    have h : Opens ['i', 'n', 'v'] "invalid range '" := by decide
    exact h.append.append.append.append
  | invalidRepetition least most =>
    have h : Opens ['i', 'n', 'v'] "invalid repetition range \x7b" := by decide
    exact h.append.append.append.append
  | emptyClass shown =>
    have h : Opens ['c', 'h', 'a'] "character class " := by decide
    exact h.append.append
  | recursiveReference name =>
    have h : Opens ['r', 'e', 'c'] "recursive reference to <" := by decide
    exact h.append.append
  | undefinedReference name =>
    have h : Opens ['u', 'n', 'd'] "undefined reference to <" := by decide
    exact h.append.append
  | excessiveRepetition bound limit =>
    have h : Opens ['r', 'e', 'p'] "repetition bound " := by decide
    exact h.append.append.append

/-- Behind the position the wording follows. -/
theorem take_located (issue : Issue) (pos : Option Pos) :
    ((located pos issue.text).toList.dropWhile inPosition).take 3 = issue.opening := by
  obtain ⟨rest, hrest⟩ := issue.opens_text
  rw [dropWhile_located, ← hrest]
  -- No wording begins with a character that may stand in a position.
  cases issue <;> rfl

/-- Only a recursive reference has the message of one. -/
theorem exists_of_message_eq {issue : Issue} {pos pos' : Option Pos} {name : String}
    (h : issue.message pos = (recursiveReference name).message pos') :
    ∃ name', issue = .recursiveReference name' := by
  have hopening : issue.opening = (recursiveReference name).opening := by
    unfold message at h
    split at h
    · exact nomatch h
    · have htake := congrArg (fun s : String => (s.toList.dropWhile inPosition).take 3)
        (Message.error.inj h)
      simpa only [take_located] using htake
  cases issue with
  | recursiveReference name' => exact ⟨name', rfl⟩
  | _ => simp [opening] at hopening

end Issue

end Lexwright

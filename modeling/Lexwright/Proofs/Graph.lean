import Lexwright.Automaton.Closure

/-!
# `Lexwright.Proofs.Graph`: words on the paths of an automaton

A path reads a word: its moves consume the characters, its jumps consume nothing. What a fragment
does inside a larger automaton depends on the edges that leave its states only, so the lemmas are
stated for any graph, by two conditions on it.

* `Graph.Path`: a path from one state to another, and the word that it reads.
* `Graph.Steps`: the same with the number of edges, for inductions on it.
* `Graph.Includes`: the graph has all the edges of two lists.
* `Graph.Only`: no other edge leaves certain states.
* `Automaton.graph`: the edges of an automaton.
-/

set_option autoImplicit false

namespace Lexwright

/-- The edges between numbered states. -/
structure Graph where
  jump : Nat → Nat → Prop
  move : Nat → Char → Nat → Prop

/-- The edges of an automaton. A move reads the characters that its set covers. -/
def Automaton.graph (a : Automaton) : Graph where
  jump p q := ∃ s, a.states[p]? = some s ∧ q ∈ s.jumps
  move p c q := ∃ set, a.move? p = some (set, q) ∧ set.Covers c.toNat

namespace Graph

variable {g : Graph} {p q r : Nat} {c : Char} {u v w : List Char} {n m : Nat}

/-- A path from one state to another, and the word that it reads. -/
inductive Path (g : Graph) : Nat → List Char → Nat → Prop where
  | refl (p : Nat) : Path g p [] p
  | jump {p q r : Nat} {w : List Char} (h : g.jump p q) (rest : Path g q w r) : Path g p w r
  | move {p q r : Nat} {c : Char} {w : List Char} (h : g.move p c q) (rest : Path g q w r) :
      Path g p (c :: w) r

/-- A path of `n` edges, and the word that it reads. -/
inductive Steps (g : Graph) : Nat → Nat → List Char → Nat → Prop where
  | refl (p : Nat) : Steps g 0 p [] p
  | jump {n p q r : Nat} {w : List Char} (h : g.jump p q) (rest : Steps g n q w r) :
      Steps g (n + 1) p w r
  | move {n p q r : Nat} {c : Char} {w : List Char} (h : g.move p c q) (rest : Steps g n q w r) :
      Steps g (n + 1) p (c :: w) r

/-- Counted steps make a path. -/
theorem Steps.path (h : g.Steps n p w q) : g.Path p w q := by
  induction h with
  | refl p => exact .refl p
  | jump h _ ih => exact .jump h ih
  | move h _ ih => exact .move h ih

/-- A path has a number of steps. -/
theorem Path.exists_steps (h : g.Path p w q) : ∃ n, g.Steps n p w q := by
  induction h with
  | refl p => exact ⟨0, .refl p⟩
  | jump h _ ih =>
    obtain ⟨n, hn⟩ := ih
    exact ⟨n + 1, .jump h hn⟩
  | move h _ ih =>
    obtain ⟨n, hn⟩ := ih
    exact ⟨n + 1, .move h hn⟩

/-- Paths are joined where one ends and the other begins. -/
theorem Path.trans (h : g.Path p u q) (h' : g.Path q v r) : g.Path p (u ++ v) r := by
  induction h with
  | refl p => exact h'
  | jump h _ ih => exact .jump h (ih h')
  | move h _ ih => exact .move h (ih h')

/-- A jump at the end of a path. -/
theorem Path.snoc (h : g.Path p w q) (hjump : g.jump q r) : g.Path p w r := by
  have := h.trans (.jump hjump (.refl r))
  rwa [List.append_nil] at this

/-- A path that reads a character makes a move: before it there are jumps only. -/
theorem path_cons_iff :
    g.Path p (c :: w) r ↔ ∃ q q', g.Path p [] q ∧ g.move q c q' ∧ g.Path q' w r := by
  constructor
  · intro h
    generalize hword : c :: w = word at h
    induction h with
    | refl p => cases hword
    | jump h _ ih =>
      -- A jump in front is one more jump before the move.
      obtain ⟨q, q', hbefore, hmove, hafter⟩ := ih hword
      exact ⟨q, q', .jump h hbefore, hmove, hafter⟩
    | move h rest =>
      cases hword
      exact ⟨_, _, .refl _, h, rest⟩
  · intro ⟨q, q', hbefore, hmove, hafter⟩
    exact hbefore.trans (.move hmove hafter)

/-- A path that reads one word after another passes a state between them. -/
theorem path_append_iff :
    g.Path p (u ++ v) r ↔ ∃ q, g.Path p u q ∧ g.Path q v r := by
  constructor
  · induction u generalizing p with
    | nil => exact fun h => ⟨p, .refl p, h⟩
    | cons c u ih =>
      intro h
      -- The jumps before the first character belong to the first word.
      obtain ⟨q, q', hbefore, hmove, hafter⟩ := path_cons_iff.1 h
      obtain ⟨s, hs, hrest⟩ := ih hafter
      exact ⟨s, path_cons_iff.2 ⟨q, q', hbefore, hmove, hs⟩, hrest⟩
  · intro ⟨q, h, h'⟩
    exact h.trans h'

/-! ### The edges that leave certain states -/

/-- The graph has all these edges. -/
structure Includes (g : Graph) (moves : List Move) (jumps : List Jump) : Prop where
  move : ∀ {p set q c}, ⟨p, set, q⟩ ∈ moves → set.Covers c.toNat → g.move p c q
  jump : ∀ {p q}, ⟨p, q⟩ ∈ jumps → g.jump p q

/-- No other edge leaves the states inside. -/
structure Only (g : Graph) (inside : Nat → Prop) (moves : List Move) (jumps : List Jump) :
    Prop where
  move : ∀ {p c q}, inside p → g.move p c q → ∃ set, ⟨p, set, q⟩ ∈ moves ∧ set.Covers c.toNat
  jump : ∀ {p q}, inside p → g.jump p q → ⟨p, q⟩ ∈ jumps

variable {moves moves' : List Move} {jumps jumps' : List Jump} {inside inside' : Nat → Prop}

/-- A graph that has some edges has each part of them. -/
theorem Includes.mono (h : g.Includes moves jumps) (hmoves : ∀ e ∈ moves', e ∈ moves)
    (hjumps : ∀ e ∈ jumps', e ∈ jumps) : g.Includes moves' jumps' :=
  ⟨fun he => h.move (hmoves _ he), fun he => h.jump (hjumps _ he)⟩

/-- A graph that has two lists of edges has the first. -/
theorem Includes.left (h : g.Includes (moves ++ moves') (jumps ++ jumps')) :
    g.Includes moves jumps :=
  h.mono (fun _ he => List.mem_append_left _ he) fun _ he => List.mem_append_left _ he

/-- A graph that has two lists of edges has the second. -/
theorem Includes.right (h : g.Includes (moves ++ moves') (jumps ++ jumps')) :
    g.Includes moves' jumps' :=
  h.mono (fun _ he => List.mem_append_right _ he) fun _ he => List.mem_append_right _ he

/-- Fewer states are left by fewer edges. -/
theorem Only.narrow (h : g.Only inside moves jumps) (hinside : ∀ p, inside' p → inside p)
    (hmoves : ∀ e ∈ moves, inside' e.source → e ∈ moves')
    (hjumps : ∀ e ∈ jumps, inside' e.source → e ∈ jumps') : g.Only inside' moves' jumps' := by
  constructor
  · intro p c q hp hmove
    obtain ⟨set, hmem, hcovers⟩ := h.move (hinside p hp) hmove
    exact ⟨set, hmoves _ hmem hp, hcovers⟩
  · intro p q hp hjump
    exact hjumps _ (h.jump (hinside p hp) hjump) hp

/-- The states that the later edges do not leave are left by the others only. -/
theorem Only.left (h : g.Only inside (moves ++ moves') (jumps ++ jumps'))
    (hinside : ∀ p, inside' p → inside p) (hmoves : ∀ e ∈ moves', ¬inside' e.source)
    (hjumps : ∀ e ∈ jumps', ¬inside' e.source) : g.Only inside' moves jumps := by
  refine h.narrow hinside (fun e he hs => ?_) fun e he hs => ?_
  · exact (List.mem_append.1 he).resolve_right fun he => hmoves e he hs
  · exact (List.mem_append.1 he).resolve_right fun he => hjumps e he hs

/-- The states that the earlier edges do not leave are left by the others only. -/
theorem Only.right (h : g.Only inside (moves ++ moves') (jumps ++ jumps'))
    (hinside : ∀ p, inside' p → inside p) (hmoves : ∀ e ∈ moves, ¬inside' e.source)
    (hjumps : ∀ e ∈ jumps, ¬inside' e.source) : g.Only inside' moves' jumps' := by
  refine h.narrow hinside (fun e he hs => ?_) fun e he hs => ?_
  · exact (List.mem_append.1 he).resolve_left fun he => hmoves e he hs
  · exact (List.mem_append.1 he).resolve_left fun he => hjumps e he hs

/-- A path that starts at a state that only jumps, and ends elsewhere, begins with a jump. -/
theorem Steps.exists_jump (h : g.Steps n p w r) (hne : p ≠ r) (honly : g.Only inside moves jumps)
    (hp : inside p) (hmoves : ∀ e ∈ moves, e.source ≠ p) :
    ∃ q m, n = m + 1 ∧ ⟨p, q⟩ ∈ jumps ∧ g.Steps m q w r := by
  cases h with
  | refl => exact absurd rfl hne
  | jump h rest => exact ⟨_, _, rfl, honly.jump hp h, rest⟩
  | move h rest =>
    obtain ⟨set, hmem, _⟩ := honly.move hp h
    exact absurd rfl (hmoves _ hmem)

/-- A path that starts at a state that only moves, and ends elsewhere, begins with a move. -/
theorem Steps.exists_move (h : g.Steps n p w r) (hne : p ≠ r) (honly : g.Only inside moves jumps)
    (hp : inside p) (hjumps : ∀ e ∈ jumps, e.source ≠ p) :
    ∃ c u q m set, w = c :: u ∧ n = m + 1 ∧ ⟨p, set, q⟩ ∈ moves ∧ set.Covers c.toNat ∧
      g.Steps m q u r := by
  cases h with
  | refl => exact absurd rfl hne
  | jump h rest => exact absurd rfl (hjumps _ (honly.jump hp h))
  | move h rest =>
    obtain ⟨set, hmem, hcovers⟩ := honly.move hp h
    exact ⟨_, _, _, _, set, rfl, rfl, hmem, hcovers, rest⟩

/-- A path ends where no edge leads on. -/
theorem Path.eq_of_final (h : g.Path p w q) (hmove : ∀ c r, ¬g.move p c r)
    (hjump : ∀ r, ¬g.jump p r) : w = [] ∧ q = p := by
  cases h with
  | refl => exact ⟨rfl, rfl⟩
  | jump h => exact absurd h (hjump _)
  | move h => exact absurd h (hmove _ _)

end Graph

end Lexwright

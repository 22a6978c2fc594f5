import Lexwright.Proofs.Graph
import Lexwright.Proofs.Language

/-!
# `Lexwright.Proofs.Automaton.Recognizes`: what it is for a fragment to recognize texts

A fragment is built into larger ones, which put jumps on its exit. So what it recognizes is said
for every graph that contains it: the paths that enter at its entry, and go anywhere outside, read
a text of its pattern and then leave from its exit.

* `Fragment.Recognizes`: the invariant. `recognizes_chars` and `recognizes_literal` give it for
  the smallest fragments.
* `Fragment.Consecutive`: the invariant for fragments in consecutive blocks.
* `Fragment.Connects`: the same for edges between two states that lie outside of the block.
-/

set_option autoImplicit false

namespace Lexwright

namespace Fragment

/-- A state of the block that is not the exit. -/
def Inside (f : Fragment) (base s : Nat) : Prop := base ≤ s ∧ s < base + f.size ∧ s ≠ f.exit

/-- A state of the block. -/
def Within (f : Fragment) (base s : Nat) : Prop := base ≤ s ∧ s < base + f.size

/-- The edges lead from states of the block to states of the block; none leaves the exit, and no
state has two moves. -/
structure Fits (f : Fragment) (base : Nat) : Prop where
  entry : f.Within base f.entry
  exit : f.Within base f.exit
  move : ∀ e ∈ f.moves, f.Inside base e.source ∧ f.Within base e.target
  jump : ∀ e ∈ f.jumps, f.Inside base e.source ∧ f.Within base e.target
  sets : ∀ e ∈ f.moves, e.set.Regular
  nodup : (f.moves.map Move.source).Nodup

/-- In every graph that contains the fragment, it can be passed with the words of the language,
and it cannot be passed with others. -/
structure Recognizes (f : Fragment) (base : Nat) (L : List Char → Prop) : Prop extends
    f.Fits base where
  complete : ∀ {g : Graph} {w : List Char}, g.Includes f.moves f.jumps → L w →
    g.Path f.entry w f.exit
  sound : ∀ {g : Graph} {n t : Nat} {w : List Char}, g.Only (f.Inside base) f.moves f.jumps →
    ¬f.Inside base t → g.Steps n f.entry w t →
    ∃ u v m, w = u ++ v ∧ m ≤ n ∧ L u ∧ g.Steps m f.exit v t

/-- Fragments in consecutive blocks from `base` on, each with its language. -/
inductive Consecutive : Nat → List Fragment → List (List Char → Prop) → Prop where
  | nil (base : Nat) : Consecutive base [] []
  | cons {base : Nat} {f : Fragment} {fs : List Fragment} {L : List Char → Prop}
      {Ls : List (List Char → Prop)} (head : f.Recognizes base L)
      (tail : Consecutive (base + f.size) fs Ls) : Consecutive base (f :: fs) (L :: Ls)

variable {f : Fragment} {fs : List Fragment} {L : List Char → Prop} {Ls : List (List Char → Prop)}
  {g : Graph} {base current n t : Nat} {w : List Char}

/-- A fragment recognizes a language, however the language is described. -/
theorem Recognizes.congr {L' : List Char → Prop} (h : f.Recognizes base L)
    (hL : ∀ w, L w ↔ L' w) : f.Recognizes base L' := by
  have : L = L' := funext fun w => propext (hL w)
  rwa [← this]

/-- Sizes of fragments are added. -/
theorem sizeAll_cons (f : Fragment) (fs : List Fragment) :
    sizeAll (f :: fs) = f.size + sizeAll fs := rfl

/-! ### One character, and the characters of a literal -/

/-- One move reads one character of its set. -/
theorem recognizes_chars {set : Segments} (hset : set.Regular) (base : Nat) :
    (Fragment.chars set base).Recognizes base fun w => ∃ c, w = [c] ∧ set.Covers c.toNat where
  entry := ⟨Nat.le_refl _, Nat.lt_add_of_pos_right Nat.zero_lt_two⟩
  exit := ⟨Nat.le_succ _, Nat.lt_succ_self _⟩
  move e he := by
    unfold chars at he
    split at he
    · exact absurd he List.not_mem_nil
    · rw [List.mem_singleton.1 he]
      simp only [Inside, Within, chars]
      omega
  jump e he := absurd he List.not_mem_nil
  sets e he := by
    unfold chars at he
    split at he
    · exact absurd he List.not_mem_nil
    · rw [List.mem_singleton.1 he]
      exact hset
  nodup := by
    unfold chars
    split <;> simp
  complete := by
    intro g w hg ⟨c, hw, hcovers⟩
    subst hw
    -- A set that covers a character is not empty, so the move was made.
    have hne : ¬set.isEmpty = true := fun h => by
      obtain ⟨seg, hseg, _⟩ := hcovers
      rw [List.isEmpty_iff.1 h] at hseg
      exact absurd hseg List.not_mem_nil
    have hmem : ⟨base, set, base + 1⟩ ∈ (chars set base).moves := by simp [chars, hne]
    exact .move (hg.move hmem hcovers) (.refl _)
  sound := by
    intro g n t w honly ht hsteps
    -- The entry has the one move of the fragment, and the path cannot end there.
    have hbase : (chars set base).Inside base base := by
      simp only [Inside, chars]
      omega
    obtain ⟨c, u, q, m, set', rfl, rfl, hmem, hcovers, hrest⟩ :=
      hsteps.exists_move (fun h => ht (h ▸ hbase)) honly hbase (fun e he => nomatch he)
    unfold chars at hmem
    split at hmem
    · exact absurd hmem List.not_mem_nil
    · cases List.mem_singleton.1 hmem
      exact ⟨[c], u, m, rfl, Nat.le_succ m, ⟨c, rfl, hcovers⟩, hrest⟩

/-- The moves of a literal go from each state to the next one. -/
theorem mem_literalMoves {sets : List Segments} {e : Move} (he : e ∈ literalMoves base sets) :
    base ≤ e.source ∧ e.source < base + sets.length ∧ e.target = e.source + 1 ∧ e.set ∈ sets := by
  induction sets generalizing base with
  | nil => exact absurd he List.not_mem_nil
  | cons set sets ih =>
    rcases List.mem_cons.1 he with rfl | he
    · exact ⟨Nat.le_refl _, Nat.lt_add_of_pos_right (Nat.succ_pos _), rfl, List.mem_cons_self⟩
    · obtain ⟨hlow, hhigh, htarget, hset⟩ := ih he
      rw [List.length_cons]
      exact ⟨by omega, by omega, htarget, List.mem_cons_of_mem _ hset⟩

/-- No state of a literal has two moves. -/
theorem nodup_literalMoves (sets : List Segments) (base : Nat) :
    ((literalMoves base sets).map Move.source).Nodup := by
  induction sets generalizing base with
  | nil => exact .nil
  | cons set sets ih =>
    refine List.nodup_cons.2 ⟨fun h => ?_, ih (base + 1)⟩
    obtain ⟨e, he, heq⟩ := List.mem_map.1 h
    have := (mem_literalMoves he).1
    rw [heq] at this
    exact Nat.lt_irrefl _ this

/-- A text of characters of the sets has a path through the literal. -/
theorem path_literal {sets : List Segments} (hg : g.Includes (literalMoves base sets) [])
    (hw : InSets sets w) : g.Path base w (base + sets.length) := by
  induction sets generalizing base w with
  | nil =>
    rw [show w = [] from hw]
    exact .refl _
  | cons set sets ih =>
    obtain ⟨c, v, rfl, hcovers, hv⟩ := hw
    have hmem : ⟨base, set, base + 1⟩ ∈ literalMoves base (set :: sets) := List.mem_cons_self
    refine .move (hg.move hmem hcovers) ?_
    rw [List.length_cons, show base + (sets.length + 1) = base + 1 + sets.length by omega]
    exact ih (hg.mono (fun e he => List.mem_cons_of_mem _ he) fun e he => he) hv

/-- A path through a literal reads a character of each set. -/
theorem exists_literal {sets : List Segments}
    (honly : g.Only (fun s => base ≤ s ∧ s < base + sets.length) (literalMoves base sets) [])
    (ht : ¬(base ≤ t ∧ t < base + sets.length)) (hsteps : g.Steps n base w t) :
    ∃ u v m, w = u ++ v ∧ m ≤ n ∧ InSets sets u ∧ g.Steps m (base + sets.length) v t := by
  induction sets generalizing base n w with
  | nil => exact ⟨[], w, n, rfl, Nat.le_refl _, rfl, hsteps⟩
  | cons set sets ih =>
    rw [List.length_cons] at honly ht
    obtain ⟨c, u, q, m, set', rfl, rfl, hmem, hcovers, hrest⟩ :=
      hsteps.exists_move (fun h => ht (by omega)) honly (by omega) (fun e he => nomatch he)
    -- The later moves have other sources.
    have hmove : set' = set ∧ q = base + 1 := by
      rcases List.mem_cons.1 hmem with heq | hmem
      · cases heq
        exact ⟨rfl, rfl⟩
      · have := (mem_literalMoves hmem).1
        exact absurd this (Nat.not_succ_le_self _)
    obtain ⟨rfl, rfl⟩ := hmove
    have honly' : g.Only (fun s => base + 1 ≤ s ∧ s < base + 1 + sets.length)
        (literalMoves (base + 1) sets) [] := by
      refine honly.narrow (fun p hp => by omega) (fun e he hsource => ?_) fun e he _ => he
      rcases List.mem_cons.1 he with rfl | he
      · exact absurd hsource.1 (Nat.not_succ_le_self _)
      · exact he
    obtain ⟨x, v, k, rfl, hk, hx, hend⟩ := ih honly' (by omega) hrest
    -- The remaining sets start one state later.
    refine ⟨c :: x, v, k, rfl, by omega, ⟨c, x, rfl, hcovers, hx⟩, ?_⟩
    rw [List.length_cons, show base + (sets.length + 1) = base + 1 + sets.length by omega]
    exact hend

/-- A literal reads one character of each of its sets, in order. -/
theorem recognizes_literal {sets : List Segments} (hsets : ∀ set ∈ sets, set.Regular)
    (base : Nat) : (Fragment.literal sets base).Recognizes base (InSets sets) where
  entry := ⟨Nat.le_refl _, Nat.lt_add_of_pos_right (Nat.succ_pos _)⟩
  exit := ⟨Nat.le_add_right _ _, Nat.lt_succ_self _⟩
  move e he := by
    have := mem_literalMoves he
    simp only [Inside, Within, literal]
    omega
  jump e he := absurd he List.not_mem_nil
  sets e he := hsets _ (mem_literalMoves he).2.2.2
  nodup := nodup_literalMoves sets base
  complete := path_literal
  sound := by
    intro g n t w honly ht hsteps
    refine exists_literal (honly.narrow (fun p hp => ?_) (fun e he _ => he) fun e he _ => he)
      (fun h => ht ?_) hsteps
    · simp only [Inside, literal]
      omega
    · simp only [Inside, literal]
      omega

/-! ### Fragments in consecutive blocks -/

namespace Consecutive

/-- Every fragment of the row lies in a block of its own. -/
theorem exists_base (h : Consecutive base fs Ls) (hf : f ∈ fs) :
    ∃ b L, f.Recognizes b L ∧ L ∈ Ls ∧ base ≤ b ∧ b + f.size ≤ base + sizeAll fs := by
  induction h with
  | nil => exact absurd hf List.not_mem_nil
  | cons head tail ih =>
    rw [sizeAll_cons]
    rcases List.mem_cons.1 hf with rfl | hf
    · exact ⟨_, _, head, List.mem_cons_self, Nat.le_refl _, by omega⟩
    · obtain ⟨b, L, hb, hL, hlow, hhigh⟩ := ih hf
      exact ⟨b, L, hb, List.mem_cons_of_mem _ hL, by omega, by omega⟩

/-- Moves of consecutive fragments stay within their blocks. -/
theorem move (h : Consecutive base fs Ls) {e : Move} (he : e ∈ fs.flatMap moves) :
    (base ≤ e.source ∧ e.source < base + sizeAll fs) ∧
      (base ≤ e.target ∧ e.target < base + sizeAll fs) ∧ e.set.Regular := by
  obtain ⟨f, hf, he⟩ := List.mem_flatMap.1 he
  obtain ⟨b, L, hb, -, hlow, hhigh⟩ := h.exists_base hf
  obtain ⟨hsource, htarget⟩ := hb.move e he
  simp only [Inside, Within] at hsource htarget
  exact ⟨by omega, by omega, hb.sets e he⟩

/-- No state of consecutive fragments has two moves: their blocks are apart. -/
theorem nodup (h : Consecutive base fs Ls) : ((fs.flatMap moves).map Move.source).Nodup := by
  induction h with
  | nil => exact .nil
  | cons head tail ih =>
    rw [List.flatMap_cons, List.map_append]
    refine List.nodup_append.2 ⟨head.nodup, ih, fun p hp q hq => ?_⟩
    obtain ⟨e, he, rfl⟩ := List.mem_map.1 hp
    obtain ⟨e', he', rfl⟩ := List.mem_map.1 hq
    -- The blocks are disjoint, so moves of different fragments differ in their sources.
    have := (head.move e he).1
    have := (tail.move he').1
    simp only [Inside] at *
    omega

/-- The first fragment is left by its own edges only, if the jumps that are added elsewhere do not
leave it. -/
theorem only_head (tail : Consecutive (base + f.size) fs Ls) {inside : Nat → Prop}
    {jumps : List Jump} (honly : g.Only inside ((f :: fs).flatMap moves) jumps)
    (hinside : ∀ s, f.Inside base s → inside s)
    (hjumps : ∀ e ∈ jumps, f.Inside base e.source → e ∈ f.jumps) :
    g.Only (f.Inside base) f.moves f.jumps := by
  refine honly.narrow hinside (fun e he hs => ?_) hjumps
  rcases List.mem_append.1 he with he | he
  · exact he
  · have := (tail.move he).1
    simp only [Inside] at hs
    omega

/-- The same for the other fragments and the states `later` outside of the first one. -/
theorem only_tail (head : f.Fits base) {inside later : Nat → Prop} {jumps jumps' : List Jump}
    (honly : g.Only inside ((f :: fs).flatMap moves) jumps) (hlater : ∀ s, later s → inside s)
    (houtside : ∀ s, later s → ¬f.Inside base s)
    (hjumps : ∀ e ∈ jumps, later e.source → e ∈ jumps') :
    g.Only later (fs.flatMap moves) jumps' := by
  refine honly.narrow hlater (fun e he hs => ?_) hjumps
  rcases List.mem_append.1 he with he | he
  · exact absurd (head.move e he).1 (houtside _ hs)
  · exact he

end Consecutive

/-! ### Between two states -/

/-- Edges that lead from `p` through a block to `x`, where neither state is one of the block. As
in `Recognizes` the block can be passed with the words of the language and with no others. -/
structure Connects (base size p x : Nat) (moves : List Move) (jumps : List Jump)
    (L : List Char → Prop) : Prop where
  move : ∀ e ∈ moves, (base ≤ e.source ∧ e.source < base + size) ∧
    (base ≤ e.target ∧ e.target < base + size) ∧ e.set.Regular
  jump : ∀ e ∈ jumps, (e.source = p ∨ base ≤ e.source ∧ e.source < base + size) ∧
    (e.target = x ∨ base ≤ e.target ∧ e.target < base + size)
  nodup : (moves.map Move.source).Nodup
  complete : ∀ {g : Graph} {w : List Char}, g.Includes moves jumps → L w → g.Path p w x
  sound : ∀ {g : Graph} {n t : Nat} {w : List Char},
    g.Only (fun s => s = p ∨ base ≤ s ∧ s < base + size) moves jumps →
    ¬(t = p ∨ base ≤ t ∧ t < base + size) → g.Steps n p w t →
    ∃ u v m, w = u ++ v ∧ m ≤ n ∧ L u ∧ g.Steps m x v t

/-- A fragment recognizes what connects its entry and its exit. -/
theorem Connects.recognizes {b size : Nat}
    (h : Connects b size f.entry f.exit f.moves f.jumps L) (hne : f.entry ≠ f.exit)
    (hexit : ¬(b ≤ f.exit ∧ f.exit < b + size))
    (hblock : ∀ s, f.Within base s ↔ s = f.entry ∨ s = f.exit ∨ b ≤ s ∧ s < b + size) :
    f.Recognizes base L := by
  -- Without the exit, the block of the fragment is the entry and the inner block.
  have hinside : ∀ s, f.Inside base s ↔ s = f.entry ∨ b ≤ s ∧ s < b + size := by
    intro s
    have := hblock s
    simp only [Within] at this
    simp only [Inside]
    omega
  exact {
    entry := (hblock _).2 (Or.inl rfl)
    exit := (hblock _).2 (Or.inr (Or.inl rfl))
    move := fun e he => by
      obtain ⟨hsource, htarget, -⟩ := h.move e he
      exact ⟨(hinside _).2 (Or.inr hsource), (hblock _).2 (Or.inr (Or.inr htarget))⟩
    jump := fun e he => by
      obtain ⟨hsource, htarget⟩ := h.jump e he
      exact ⟨(hinside _).2 hsource, (hblock _).2 (Or.inr htarget)⟩
    sets := fun e he => (h.move e he).2.2
    nodup := h.nodup
    complete := h.complete
    sound := fun honly ht hsteps =>
      h.sound (honly.narrow (fun s hs => (hinside s).2 hs) (fun e he _ => he) fun e he _ => he)
        (fun hs => ht ((hinside _).2 hs)) hsteps }

end Fragment

end Lexwright

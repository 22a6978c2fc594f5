import Lexwright.Proofs.Automaton.Recognizes

/-!
# `Lexwright.Proofs.Automaton.Sequence`: fragments one after another

* `Fragment.Consecutive.exists_chain`: a path through a chain of fragments reads a word of each of
  them, in order.
* `Fragment.recognizes_seq`: a sequence recognizes one word of each fragment.
-/

set_option autoImplicit false

namespace Lexwright

namespace Fragment

variable {f : Fragment} {fs : List Fragment} {L : List Char → Prop} {Ls : List (List Char → Prop)}
  {g : Graph} {base current n t : Nat} {w : List Char}

namespace Consecutive

/-- A row ends at the exit of its last fragment, or where it starts if there is none. -/
theorem chainEnd_eq_or (h : Consecutive base fs Ls) (current : Nat) :
    (fs = [] ∧ chainEnd current fs = current) ∨
      (base ≤ chainEnd current fs ∧ chainEnd current fs < base + sizeAll fs) := by
  induction h generalizing current with
  | nil => exact Or.inl ⟨rfl, rfl⟩
  | @cons base f fs L Ls head tail ih =>
    refine Or.inr ?_
    have hexit := head.exit
    simp only [Within] at hexit
    rw [sizeAll_cons, chainEnd]
    rcases ih f.exit with ⟨-, heq⟩ | hend
    · rw [heq]
      omega
    · omega

/-- The states of a chain other than its end. -/
def InChain (base current : Nat) (fs : List Fragment) (s : Nat) : Prop :=
  (s = current ∨ base ≤ s ∧ s < base + sizeAll fs) ∧ s ≠ chainEnd current fs

/-- The jumps of a row stay within it, and none leads back to its start. -/
theorem chain (h : Consecutive base fs Ls) (hcurrent : current < base) {e : Jump}
    (he : e ∈ chain current fs) :
    InChain base current fs e.source ∧ base ≤ e.target ∧ e.target < base + sizeAll fs := by
  induction h generalizing current with
  | nil => exact absurd he List.not_mem_nil
  | @cons base f fs L Ls head tail ih =>
    have hentry := head.entry
    have hexit := head.exit
    simp only [Within] at hentry hexit
    have hend := tail.chainEnd_eq_or f.exit
    unfold InChain
    rw [sizeAll_cons, chainEnd]
    rcases List.mem_append.1 he with he | he
    · obtain ⟨hsource, htarget⟩ := head.jump e he
      simp only [Inside, Within] at hsource htarget
      omega
    · rcases List.mem_cons.1 he with rfl | he
      · exact ⟨⟨Or.inl rfl, show current ≠ _ by omega⟩,
          show base ≤ f.entry ∧ f.entry < _ by omega⟩
      · obtain ⟨hsource, htarget⟩ := ih (by omega) he
        simp only [InChain] at hsource
        omega

/-- No move leaves the end of a row: exits have no moves. -/
theorem move_ne_chainEnd (h : Consecutive base fs Ls) (hcurrent : current < base) {e : Move}
    (he : e ∈ fs.flatMap moves) : e.source ≠ chainEnd current fs := by
  induction h generalizing current with
  | nil => exact absurd he List.not_mem_nil
  | @cons base f fs L Ls head tail ih =>
    have hexit := head.exit
    simp only [Within] at hexit
    rcases List.mem_append.1 he with he | he
    · have := (head.move e he).1
      have hend := tail.chainEnd_eq_or f.exit
      simp only [Inside, chainEnd] at this ⊢
      omega
    · exact ih (by omega) he

/-- Texts of the languages in order have a path through the row. -/
theorem path_chain (h : Consecutive base fs Ls)
    (hg : g.Includes (fs.flatMap moves) (Fragment.chain current fs)) (hw : InSeq id Ls w) :
    g.Path current w (chainEnd current fs) := by
  induction h generalizing current w with
  | nil =>
    rw [show w = [] from hw]
    exact .refl _
  | @cons base f fs L Ls head tail ih =>
    obtain ⟨u, v, rfl, hu, hv⟩ := hw
    have htail : g.Includes (fs.flatMap moves) (Fragment.chain f.exit fs) :=
      hg.right.mono (fun e he => he) fun e he => List.mem_cons_of_mem _ he
    refine .jump (hg.right.jump List.mem_cons_self) ?_
    exact (head.complete hg.left hu).trans (ih htail hv)

/-- After the first fragment of a row a path goes on through the others, if no edge from elsewhere
comes between. `hlater` says what it reads there. -/
theorem exists_first (head : f.Recognizes base L) (tail : Consecutive (base + f.size) fs Ls)
    {inside : Nat → Prop} {jumps : List Jump}
    (honly : g.Only inside ((f :: fs).flatMap moves) jumps)
    (hjumps : ∀ e ∈ jumps, e ∈ f.jumps ∨ e ∈ Fragment.chain f.exit fs ∨ e.source < base)
    (hhead : ∀ s, f.Inside base s → inside s)
    (htail : ∀ s, InChain (base + f.size) f.exit fs s → inside s) (ht : ¬inside t)
    (hlater : g.Only (InChain (base + f.size) f.exit fs) (fs.flatMap moves)
        (Fragment.chain f.exit fs) →
      ∀ {n : Nat} {w : List Char}, g.Steps n f.exit w t →
        ∃ u v m, w = u ++ v ∧ m ≤ n ∧ InSeq id Ls u ∧ g.Steps m (chainEnd f.exit fs) v t)
    (hsteps : g.Steps n f.entry w t) :
    ∃ u v m, w = u ++ v ∧ m ≤ n ∧ InSeq id (L :: Ls) u ∧
      g.Steps m (chainEnd f.exit fs) v t := by
  have hexit := head.exit
  simp only [Within] at hexit
  -- The chain behind the first fragment starts at its exit, which counts as outside of it.
  have honlyHead : g.Only (f.Inside base) f.moves f.jumps := by
    refine tail.only_head honly hhead fun e he hs => ?_
    simp only [Inside] at hs
    rcases hjumps e he with he | he | he
    · exact he
    · have := (tail.chain (by omega) he).1.1
      omega
    · omega
  have honlyTail : g.Only (InChain (base + f.size) f.exit fs) (fs.flatMap moves)
      (Fragment.chain f.exit fs) := by
    refine only_tail head.toFits honly htail (fun s hs hin => ?_) fun e he hs => ?_
    · simp only [Inside, InChain] at hs hin
      omega
    · simp only [InChain] at hs
      rcases hjumps e he with he | he | he
      · have := (head.jump e he).1
        simp only [Inside] at this
        omega
      · exact he
      · omega
  obtain ⟨u, v, k, rfl, hk, hu, hfrom⟩ := head.sound honlyHead (fun hs => ht (hhead _ hs)) hsteps
  obtain ⟨x, y, j, rfl, hj, hx, hto⟩ := hlater honlyTail hfrom
  exact ⟨u ++ x, y, j, by rw [List.append_assoc], by omega, ⟨u, x, rfl, hu, hx⟩, hto⟩

/-- A path through a chain reads a word of each fragment, in order. -/
theorem exists_chain (h : Consecutive base fs Ls) (hcurrent : current < base)
    (honly : g.Only (InChain base current fs) (fs.flatMap moves) (Fragment.chain current fs))
    (ht : ¬InChain base current fs t) (hsteps : g.Steps n current w t) :
    ∃ u v m, w = u ++ v ∧ m ≤ n ∧ InSeq id Ls u ∧ g.Steps m (chainEnd current fs) v t := by
  -- After each fragment the path stands at its exit, which is the state the next jump leaves.
  induction h generalizing current n w with
  | nil => exact ⟨[], w, n, rfl, Nat.le_refl _, rfl, hsteps⟩
  | @cons base f fs L Ls head tail ih =>
    have hexit := head.exit
    simp only [Within] at hexit
    have hend := tail.chainEnd_eq_or f.exit
    have hin : InChain base current (f :: fs) current := ⟨Or.inl rfl, by rw [chainEnd]; omega⟩
    obtain ⟨q, m, rfl, hmem, hrest⟩ :=
      hsteps.exists_jump (fun heq => ht (heq ▸ hin)) honly hin fun e he => by
        have := ((Consecutive.cons head tail).move he).1
        omega
    -- The one jump from `current` leads to the entry of the first fragment.
    have hq : q = f.entry := by
      rcases List.mem_append.1 hmem with hmem | hmem
      · have := (head.jump _ hmem).1
        simp only [Inside] at this
        omega
      · rcases List.mem_cons.1 hmem with heq | hmem
        · cases heq
          rfl
        · have := (tail.chain (by omega) hmem).1.1
          simp only at this
          omega
    subst hq
    have htail : ∀ s, InChain (base + f.size) f.exit fs s → InChain base current (f :: fs) s := by
      intro s hs
      simp only [InChain, sizeAll_cons, chainEnd] at hs ⊢
      omega
    have hhead : ∀ s, f.Inside base s → InChain base current (f :: fs) s := by
      intro s hs
      simp only [Inside, InChain, sizeAll_cons, chainEnd] at hs ⊢
      omega
    have hjumps : ∀ e ∈ Fragment.chain current (f :: fs),
        e ∈ f.jumps ∨ e ∈ Fragment.chain f.exit fs ∨ e.source < base := by
      intro e he
      rcases List.mem_append.1 he with he | he
      · exact Or.inl he
      · rcases List.mem_cons.1 he with rfl | he
        · exact Or.inr (Or.inr hcurrent)
        · exact Or.inr (Or.inl he)
    obtain ⟨u, v, k, hw, hk, hu, hto⟩ := exists_first head tail honly hjumps hhead htail ht
      (fun honly' _ _ => ih (by omega) honly' fun hs => ht (htail _ hs)) hrest
    exact ⟨u, v, k, hw, by omega, hu, hto⟩

end Consecutive

/-- Fragments in a row recognize the words that consist of one word for each. -/
theorem recognizes_seq (h : Consecutive base fs Ls) :
    (Fragment.seq base fs).Recognizes base (InSeq id Ls) := by
  cases h with
  | nil =>
    -- Without fragments there is one state, both entry and exit.
    exact {
      entry := ⟨Nat.le_refl _, Nat.lt_succ_self _⟩
      exit := ⟨Nat.le_refl _, Nat.lt_succ_self _⟩
      move := fun e he => absurd he List.not_mem_nil
      jump := fun e he => absurd he List.not_mem_nil
      sets := fun e he => absurd he List.not_mem_nil
      nodup := .nil
      complete := fun _ hw => by
        rw [show _ = [] from hw]
        exact .refl _
      sound := fun _ _ hsteps => ⟨[], _, _, rfl, Nat.le_refl _, rfl, hsteps⟩ }
  | @cons _ f fs L Ls head tail =>
    -- The first fragment is not jumped to: its entry is the entry of the sequence.
    have hentry := head.entry
    have hexit := head.exit
    have hend := tail.chainEnd_eq_or f.exit
    simp only [Within] at hentry hexit
    have hinside : ∀ s, Consecutive.InChain (base + f.size) f.exit fs s →
        (Fragment.seq base (f :: fs)).Inside base s := by
      intro s hs
      simp only [Consecutive.InChain, Inside, seq] at hs ⊢
      omega
    exact {
      entry := by
        simp only [Within, seq]
        omega
      exit := by
        simp only [Within, seq]
        omega
      move := fun e he => by
        rcases List.mem_append.1 he with he | he
        · have := head.move e he
          simp only [Inside, Within, seq] at this ⊢
          omega
        · obtain ⟨hsource, htarget, -⟩ := tail.move he
          have := tail.move_ne_chainEnd (show f.exit < _ by omega) he
          simp only [Inside, Within, seq]
          omega
      jump := fun e he => by
        rcases List.mem_append.1 he with he | he
        · have := head.jump e he
          simp only [Inside, Within, seq] at this ⊢
          omega
        · obtain ⟨hsource, htarget⟩ := tail.chain (by omega) he
          refine ⟨hinside _ hsource, ?_⟩
          simp only [Within, seq]
          omega
      sets := fun e he => by
        rcases List.mem_append.1 he with he | he
        · exact head.sets e he
        · exact (tail.move he).2.2
      nodup := (Consecutive.cons head tail).nodup
      complete := by
        rintro g w hg ⟨u, v, hw, hu, hv⟩
        rw [hw]
        exact (head.complete hg.left hu).trans (tail.path_chain hg.right hv)
      sound := by
        intro g n t w honly ht hsteps
        refine Consecutive.exists_first head tail honly (fun e he => ?_) (fun s hs => ?_) hinside ht
          (fun honly' => tail.exists_chain (by omega) honly' fun hs => ht (hinside _ hs)) hsteps
        · rcases List.mem_append.1 he with he | he
          · exact Or.inl he
          · exact Or.inr (Or.inl he)
        · simp only [Inside, seq] at hs ⊢
          omega }

end Fragment

end Lexwright

import Lexwright.Proofs.Automaton.Recognizes

/-!
# `Lexwright.Proofs.Automaton.Choice`: fragments side by side

* `Fragment.Consecutive.connects_ways`: the ways through several fragments connect the two states
  of a choice.
* `Fragment.recognizes_choice`: a choice recognizes a word of any one of its fragments.
-/

set_option autoImplicit false

namespace Lexwright

namespace Fragment

variable {f : Fragment} {fs : List Fragment} {L : List Char → Prop} {Ls : List (List Char → Prop)}
  {g : Graph} {base current n t : Nat} {w : List Char}

/-- The jumps of a choice that starts at `base`. -/
def ways (base : Nat) (fs : List Fragment) : List Jump :=
  fs.flatMap fun f => f.jumps ++ [⟨base, f.entry⟩, ⟨f.exit, base + 1⟩]

/-- One more way adds the jumps of its fragment, the jump to its entry and that from its exit. -/
theorem mem_ways_cons {start : Nat} {e : Jump} :
    e ∈ ways start (f :: fs) ↔
      e ∈ f.jumps ∨ e = ⟨start, f.entry⟩ ∨ e = ⟨f.exit, start + 1⟩ ∨ e ∈ ways start fs := by
  simp only [ways, List.flatMap_cons, List.mem_append, List.mem_cons, List.not_mem_nil, or_false,
    or_assoc]

namespace Consecutive

variable {start : Nat}

/-- The jumps of the ways stay within the fragments, the start and the common exit. -/
theorem ways (h : Consecutive base fs Ls) {e : Jump} (he : e ∈ ways start fs) :
    (e.source = start ∨ base ≤ e.source ∧ e.source < base + sizeAll fs) ∧
      (e.target = start + 1 ∨ base ≤ e.target ∧ e.target < base + sizeAll fs) := by
  induction h with
  | nil => exact absurd he List.not_mem_nil
  | @cons base f fs L Ls head tail ih =>
    have hentry := head.entry
    have hexit := head.exit
    simp only [Within] at hentry hexit
    rw [sizeAll_cons]
    rcases mem_ways_cons.1 he with he | rfl | rfl | he
    · have := head.jump e he
      simp only [Inside, Within] at this
      omega
    · exact ⟨Or.inl rfl, Or.inr ⟨hentry.1, show f.entry < _ by omega⟩⟩
    · exact ⟨Or.inr ⟨hexit.1, show f.exit < _ by omega⟩, Or.inl rfl⟩
    · have := ih he
      omega

/-- A text of one of the languages has a path through its fragment. -/
theorem path_ways (h : Consecutive base fs Ls)
    (hg : g.Includes (fs.flatMap moves) (Fragment.ways start fs)) {L : List Char → Prop}
    (hL : L ∈ Ls) (hw : L w) : g.Path start w (start + 1) := by
  induction h with
  | nil => exact absurd hL List.not_mem_nil
  | @cons base f fs L' Ls head tail ih =>
    rcases List.mem_cons.1 hL with rfl | hL
    · have hhead : g.Includes f.moves f.jumps :=
        hg.mono (fun e he => List.mem_append_left _ he) fun e he => mem_ways_cons.2 (Or.inl he)
      refine .jump (hg.jump (mem_ways_cons.2 (Or.inr (Or.inl rfl)))) ?_
      exact (head.complete hhead hw).snoc
        (hg.jump (mem_ways_cons.2 (Or.inr (Or.inr (Or.inl rfl)))))
    · exact ih hg.right hL

/-- A way that begins at the start leads into the first fragment, or it is one of the others. -/
theorem eq_entry_or_mem_ways (head : f.Recognizes base L) (hstart : start + 1 < base) {q : Nat}
    (hq : ⟨start, q⟩ ∈ Fragment.ways start (f :: fs)) :
    q = f.entry ∨ ⟨start, q⟩ ∈ Fragment.ways start fs := by
  have hexit := head.exit
  simp only [Within] at hexit
  rcases mem_ways_cons.1 hq with hq | hq | hq | hq
  · have := (head.jump _ hq).1
    simp only [Inside] at this
    omega
  · cases hq
    exact Or.inl rfl
  · cases hq
    omega
  · exact Or.inr hq

/-- The exit of the first fragment has the jump to `start + 1` only. -/
theorem eq_of_way_from_exit (head : f.Recognizes base L)
    (tail : Consecutive (base + f.size) fs Ls) (hstart : start + 1 < base) {q : Nat}
    (hq : ⟨f.exit, q⟩ ∈ Fragment.ways start (f :: fs)) : q = start + 1 := by
  have hexit := head.exit
  simp only [Within] at hexit
  rcases mem_ways_cons.1 hq with hq | hq | hq | hq
  · exact absurd rfl (head.jump _ hq).1.2.2
  · cases hq
    omega
  · cases hq
    rfl
  · have := (tail.ways hq).1
    simp only at this
    omega

/-- The first fragment is left by its own edges only. -/
theorem only_first_way (tail : Consecutive (base + f.size) fs Ls) (hstart : start + 1 < base)
    (honly : g.Only (fun s => base ≤ s ∧ s < base + (f.size + sizeAll fs))
      ((f :: fs).flatMap moves) (Fragment.ways start (f :: fs))) :
    g.Only (f.Inside base) f.moves f.jumps := by
  refine tail.only_head honly (fun s hs => ?_) fun e he hs => ?_
  · simp only [Inside] at hs
    omega
  · rcases mem_ways_cons.1 he with he | rfl | rfl | he
    · exact he
    · simp only [Inside] at hs
      omega
    · exact absurd rfl hs.2.2
    · have := (tail.ways he).1
      simp only [Inside] at hs
      omega

/-- The other fragments are left by the other ways only. -/
theorem only_later_ways (head : f.Recognizes base L) (hstart : start + 1 < base)
    (honly : g.Only (fun s => base ≤ s ∧ s < base + (f.size + sizeAll fs))
      ((f :: fs).flatMap moves) (Fragment.ways start (f :: fs))) :
    g.Only (fun s => base + f.size ≤ s ∧ s < base + f.size + sizeAll fs)
      (fs.flatMap moves) (Fragment.ways start fs) := by
  have hexit := head.exit
  simp only [Within] at hexit
  refine only_tail head.toFits honly (fun s hs => by omega) (fun s hs hin => ?_) fun e he hs => ?_
  · simp only [Inside] at hin
    omega
  · rcases mem_ways_cons.1 he with he | rfl | rfl | he
    · have := (head.jump e he).1
      simp only [Inside] at this
      omega
    · simp only at hs
      omega
    · simp only at hs
      omega
    · exact he

/-- A path that has entered one of the fragments reads a word of it. -/
theorem exists_way (h : Consecutive base fs Ls) (hstart : start + 1 < base)
    (honly : g.Only (fun s => base ≤ s ∧ s < base + sizeAll fs) (fs.flatMap moves)
      (Fragment.ways start fs))
    (ht : ¬(base ≤ t ∧ t < base + sizeAll fs)) {q : Nat} (hq : ⟨start, q⟩ ∈ Fragment.ways start fs)
    (hsteps : g.Steps n q w t) :
    ∃ u v m, w = u ++ v ∧ m ≤ n ∧ (∃ L ∈ Ls, L u) ∧ g.Steps m (start + 1) v t := by
  -- The fragments are tried one after another, so the induction is on the list of them.
  induction h with
  | nil => exact absurd hq List.not_mem_nil
  | @cons base f fs L Ls head tail ih =>
    have hexit := head.exit
    simp only [Within] at hexit
    rw [sizeAll_cons] at honly ht
    rcases eq_entry_or_mem_ways head hstart hq with rfl | hq
    · -- The path goes through the first fragment, and on from its exit.
      obtain ⟨u, v, m, rfl, hm, hu, hfrom⟩ :=
        head.sound (only_first_way tail hstart honly) (fun hs => by
          simp only [Inside] at hs
          omega) hsteps
      obtain ⟨q, k, rfl, hmem, hto⟩ := hfrom.exists_jump (by omega) honly (by omega) fun e he => by
        rcases List.mem_append.1 he with he | he
        · exact (head.move e he).1.2.2
        · have := (tail.move he).1
          omega
      rw [eq_of_way_from_exit head tail hstart hmem] at hto
      exact ⟨u, v, k, rfl, by omega, ⟨L, List.mem_cons_self, hu⟩, hto⟩
    · -- The path never comes to the block of the first fragment.
      obtain ⟨u, v, m, hw, hm, ⟨L', hL', hu⟩, hto⟩ :=
        ih (by omega) (only_later_ways head hstart honly) (by omega) hq
      exact ⟨u, v, m, hw, hm, ⟨L', List.mem_cons_of_mem _ hL', hu⟩, hto⟩

/-- The ways connect the start and the exit by the texts of any of the languages. -/
theorem connects_ways (h : Consecutive base fs Ls) (hstart : start + 1 < base) :
    Connects base (sizeAll fs) start (start + 1) (fs.flatMap moves) (Fragment.ways start fs)
      fun w => ∃ L ∈ Ls, L w where
  move _ he := h.move he
  jump _ he := h.ways he
  nodup := h.nodup
  complete := fun hg ⟨_, hL, hw⟩ => h.path_ways hg hL hw
  sound := by
    intro g n t w honly ht hsteps
    obtain ⟨q, m, rfl, hmem, hrest⟩ :=
      hsteps.exists_jump (fun heq => ht (Or.inl heq.symm)) honly (Or.inl rfl) fun e he => by
        have := (h.move he).1
        omega
    obtain ⟨u, v, k, hw, hk, hu, hto⟩ := h.exists_way hstart
      (honly.narrow (fun s hs => Or.inr hs) (fun e he _ => he) fun e he _ => he)
      (fun hs => ht (Or.inr hs)) hmem hrest
    exact ⟨u, v, k, hw, by omega, hu, hto⟩

end Consecutive

/-- A choice recognizes the words of any one of its fragments. -/
theorem recognizes_choice (h : Consecutive (base + 2) fs Ls) :
    (Fragment.choice base fs).Recognizes base fun w => ∃ L ∈ Ls, L w := by
  refine (h.connects_ways (Nat.lt_succ_self _)).recognizes (Nat.ne_of_lt (Nat.lt_succ_self _))
    (fun hs => ?_) fun s => ?_
  · simp only [choice] at hs
    omega
  · simp only [Within, choice]
    omega

end Fragment

end Lexwright

import Lexwright.Proofs.Automaton.Sequence

/-!
# `Lexwright.Proofs.Automaton.Repetition`: fragments that are passed several times

* `Fragment.exists_loop`: a loop reads one word after another. The induction is on the number of
  edges, because a loop leads back to where it began.
* `Fragment.connects_joins`: a fragment that is joined to two states, with or without a way past
  it and a way back. All the loops are cases of it.
* `Fragment.recognizes_chain`: copies in a row, and then what may follow them. The repetitions with
  bounds are cases of it.
* `Fragment.recognizes_repeated`: a repetition recognizes an allowed number of words.
-/

set_option autoImplicit false

namespace Lexwright

namespace Fragment

variable {f : Fragment} {fs : List Fragment} {L : List Char → Prop} {Ls : List (List Char → Prop)}
  {g : Graph} {base current n t : Nat} {w : List Char}

/-! ### Loops -/

/-- A loop is passed with one word after another. -/
theorem path_loop (h : ∀ {w : List Char}, L w → g.Path f.entry w f.exit) {k : Nat}
    (hback : k ≠ 0 → g.jump f.exit f.entry) (hw : Times L (k + 1) w) :
    g.Path f.entry w f.exit := by
  induction k generalizing w with
  | zero =>
    obtain ⟨u, v, rfl, hu, hv⟩ := hw
    rw [show v = [] from hv, List.append_nil]
    exact h hu
  | succ k ih =>
    have hjump := hback (Nat.succ_ne_zero k)
    obtain ⟨u, v, rfl, hu, hv⟩ := hw
    exact (h hu).trans (.jump hjump (ih (fun _ => hjump) hv))

/-- A loop reads one word after another, and more than one only if there is a way back. -/
theorem exists_loop (h : f.Recognizes base L) (honly : g.Only (f.Inside base) f.moves f.jumps)
    (ht : ¬f.Inside base t) {x : Nat} {back : Prop}
    (hexit : ∀ {n : Nat} {w : List Char}, g.Steps n f.exit w t →
      ∃ m, n = m + 1 ∧ (back ∧ g.Steps m f.entry w t ∨ g.Steps m x w t))
    (hsteps : g.Steps n f.entry w t) :
    ∃ k u v m, (k ≠ 0 → back) ∧ w = u ++ v ∧ m ≤ n ∧ Times L (k + 1) u ∧ g.Steps m x v t := by
  -- Each pass takes at least the edge back, so fewer edges are left.
  induction n using Nat.strongRecOn generalizing w with
  | ind n ih =>
    obtain ⟨u, v, m, rfl, hm, hu, hfrom⟩ := h.sound honly ht hsteps
    obtain ⟨j, rfl, ⟨hback, hagain⟩ | hto⟩ := hexit hfrom
    · obtain ⟨k, y, z, i, -, rfl, hi, hy, hto⟩ := ih j (by omega) hagain
      exact ⟨k + 1, u ++ y, z, i, fun _ => hback, by rw [List.append_assoc], by omega,
        ⟨u, y, rfl, hu, hy⟩, hto⟩
    · exact ⟨0, u, v, j, fun h => absurd rfl h, rfl, by omega,
        ⟨u, [], (List.append_nil u).symm, hu, rfl⟩, hto⟩

/-- The jumps that join a fragment to the states `p` and `x`: into it and out of it, with `skip`
past it, and with `back` from its exit to its entry. -/
structure Joins (f : Fragment) (p x : Nat) (skip back : Prop) (joins : List Jump) : Prop where
  enter : ⟨p, f.entry⟩ ∈ joins
  leave : ⟨f.exit, x⟩ ∈ joins
  past : skip → ⟨p, x⟩ ∈ joins
  again : back → ⟨f.exit, f.entry⟩ ∈ joins
  cases : ∀ e ∈ joins, e = ⟨p, f.entry⟩ ∨ (skip ∧ e = ⟨p, x⟩) ∨
    (back ∧ e = ⟨f.exit, f.entry⟩) ∨ e = ⟨f.exit, x⟩

section Joins

variable {p x : Nat} {skip back : Prop} {joins : List Jump}

/-- The jumps lead from `p` and the exit to `x` and the entry. -/
theorem Joins.ends (hjoins : f.Joins p x skip back joins) {e : Jump} (he : e ∈ joins) :
    (e.source = p ∨ e.source = f.exit) ∧ (e.target = x ∨ e.target = f.entry) := by
  rcases hjoins.cases e he with rfl | ⟨-, rfl⟩ | ⟨-, rfl⟩ | rfl
  · exact ⟨Or.inl rfl, Or.inr rfl⟩
  · exact ⟨Or.inl rfl, Or.inl rfl⟩
  · exact ⟨Or.inr rfl, Or.inr rfl⟩
  · exact ⟨Or.inr rfl, Or.inl rfl⟩

/-- Copies of a text go through the fragment one after another, if the jumps allow for their
number. -/
theorem Joins.path (hjoins : f.Joins p x skip back joins) (h : f.Recognizes base L)
    (hg : g.Includes f.moves (f.jumps ++ joins)) {k : Nat} (hskip : k = 0 → skip)
    (hback : 1 < k → back) (hw : Times L k w) : g.Path p w x := by
  have hjump : ∀ {q r : Nat}, ⟨q, r⟩ ∈ joins → g.jump q r := fun he =>
    hg.jump (List.mem_append_right _ he)
  have hinner : g.Includes f.moves f.jumps :=
    hg.mono (fun e he => he) fun e he => List.mem_append_left _ he
  cases k with
  | zero =>
    rw [show w = [] from hw]
    exact .jump (hjump (hjoins.past (hskip rfl))) (.refl _)
  | succ k =>
    have hloop := path_loop (h.complete hinner)
      (fun hk => hjump (hjoins.again (hback (by omega)))) hw
    exact .jump (hjump hjoins.enter) (hloop.snoc (hjump hjoins.leave))

section Sound

variable (h : f.Recognizes base L) (hp : ¬f.Within base p)
  (honly : g.Only (fun s => s = p ∨ base ≤ s ∧ s < base + f.size) f.moves (f.jumps ++ joins))
  (ht : ¬(t = p ∨ base ≤ t ∧ t < base + f.size))

include hp honly in
/-- Inside the fragment only its own edges are left. -/
theorem Joins.only_inside (hjoins : f.Joins p x skip back joins) :
    g.Only (f.Inside base) f.moves f.jumps := by
  refine honly.narrow (fun s hs => Or.inr ⟨hs.1, hs.2.1⟩) (fun e he _ => he) fun e he hs => ?_
  refine (List.mem_append.1 he).resolve_right fun he => ?_
  rcases (hjoins.ends he).1 with heq | heq
  · exact hp (heq ▸ ⟨hs.1, hs.2.1⟩)
  · exact hs.2.2 heq

include h hp honly ht in
/-- The first state and the exit of the fragment only jump, by the edges that join them. -/
theorem exists_join {q : Nat} (hq : q = p ∨ q = f.exit) (hsteps : g.Steps n q w t) :
    ∃ r m, n = m + 1 ∧ ⟨q, r⟩ ∈ joins ∧ g.Steps m r w t := by
  have hin : q = p ∨ base ≤ q ∧ q < base + f.size := by
    rcases hq with rfl | rfl
    · exact Or.inl rfl
    · exact Or.inr h.exit
  have hnot : ¬f.Inside base q := by
    rintro ⟨hlow, hhigh, hother⟩
    rcases hq with rfl | rfl
    · exact hp ⟨hlow, hhigh⟩
    · exact hother rfl
  obtain ⟨r, m, hn, hmem, hrest⟩ := hsteps.exists_jump (fun heq => ht (heq ▸ hin)) honly hin
    fun e he heq => hnot (heq ▸ (h.move e he).1)
  refine ⟨r, m, hn, ?_, hrest⟩
  exact (List.mem_append.1 hmem).resolve_left fun hmem => hnot (h.jump _ hmem).1

include h hp honly ht in
/-- From the exit the path goes back to the entry or on to `x`. -/
theorem Joins.exists_from_exit (hjoins : f.Joins p x skip back joins)
    (hsteps : g.Steps n f.exit w t) :
    ∃ m, n = m + 1 ∧ (back ∧ g.Steps m f.entry w t ∨ g.Steps m x w t) := by
  have hne : f.exit ≠ p := fun heq => hp (heq ▸ h.exit)
  obtain ⟨r, m, hn, hmem, hrest⟩ := exists_join h hp honly ht (Or.inr rfl) hsteps
  rcases hjoins.cases _ hmem with heq | ⟨-, heq⟩ | ⟨hback, heq⟩ | heq
  · exact absurd (congrArg Jump.source heq) hne
  · exact absurd (congrArg Jump.source heq) hne
  · cases heq
    exact ⟨m, hn, Or.inl ⟨hback, hrest⟩⟩
  · cases heq
    exact ⟨m, hn, Or.inr hrest⟩

include h hp honly ht in
/-- From the first state the path goes into the fragment or past it. -/
theorem Joins.exists_words (hjoins : f.Joins p x skip back joins) (hsteps : g.Steps n p w t) :
    ∃ u v m, w = u ++ v ∧ m ≤ n ∧ (∃ k, (k = 0 → skip) ∧ (1 < k → back) ∧ Times L k u) ∧
      g.Steps m x v t := by
  have hne : f.exit ≠ p := fun heq => hp (heq ▸ h.exit)
  obtain ⟨r, m, rfl, hmem, hrest⟩ := exists_join h hp honly ht (Or.inl rfl) hsteps
  rcases hjoins.cases _ hmem with heq | ⟨hskip, heq⟩ | ⟨-, heq⟩ | heq
  · cases heq
    obtain ⟨k, u, v, j, hback, hw, hj, hu, hto⟩ :=
      exists_loop h (hjoins.only_inside hp honly) (fun hs => ht (Or.inr ⟨hs.1, hs.2.1⟩))
        (hjoins.exists_from_exit h hp honly ht) hrest
    exact ⟨u, v, j, hw, by omega, ⟨k + 1, fun h => absurd h (Nat.succ_ne_zero k),
      fun h => hback (by omega), hu⟩, hto⟩
  · cases heq
    exact ⟨[], w, m, rfl, by omega, ⟨0, fun _ => hskip, fun h => absurd h (by omega), rfl⟩, hrest⟩
  · exact absurd (congrArg Jump.source heq).symm hne
  · exact absurd (congrArg Jump.source heq).symm hne

end Sound

/-- A fragment that is joined to two states is passed once, never if there is a way past it, and
any number of times if there is a way back. -/
theorem connects_joins (h : f.Recognizes base L) (hjoins : f.Joins p x skip back joins)
    (hp : ¬f.Within base p) :
    Connects base f.size p x f.moves (f.jumps ++ joins) fun w =>
      ∃ n, (n = 0 → skip) ∧ (1 < n → back) ∧ Times L n w where
  move e he := by
    obtain ⟨hsource, htarget⟩ := h.move e he
    exact ⟨⟨hsource.1, hsource.2.1⟩, htarget, h.sets e he⟩
  jump e he := by
    rcases List.mem_append.1 he with he | he
    · obtain ⟨hsource, htarget⟩ := h.jump e he
      exact ⟨Or.inr ⟨hsource.1, hsource.2.1⟩, Or.inr htarget⟩
    · obtain ⟨hsource, htarget⟩ := hjoins.ends he
      refine ⟨hsource.imp_right fun heq => ?_, htarget.imp_right fun heq => ?_⟩
      · rw [heq]
        exact h.exit
      · rw [heq]
        exact h.entry
  nodup := h.nodup
  complete := fun hg ⟨_, hskip, hback, hw⟩ => hjoins.path h hg hskip hback hw
  sound := fun honly ht hsteps => hjoins.exists_words h hp honly ht hsteps

/-- A fragment between a new entry and a new exit, which follow its block. -/
theorem recognizes_around (h : f.Recognizes base L)
    (hjoins : f.Joins (base + f.size) (base + f.size + 1) skip back joins) :
    Recognizes ⟨f.size + 2, base + f.size, base + f.size + 1, f.moves, f.jumps ++ joins⟩ base
      fun w => ∃ n, (n = 0 → skip) ∧ (1 < n → back) ∧ Times L n w := by
  have hconnects := connects_joins h hjoins fun hs => Nat.lt_irrefl _ hs.2
  refine hconnects.recognizes (Nat.ne_of_lt (Nat.lt_succ_self _)) (fun hs => ?_) fun s => ?_
  · simp only at hs
    omega
  · simp only [Within]
    omega

end Joins

/-- A jump back reads the pattern again, any number of times but at least once. -/
theorem recognizes_oneOrMore (h : f.Recognizes base L) :
    (Fragment.oneOrMore base f).Recognizes base fun w => ∃ n, 1 ≤ n ∧ Times L n w := by
  have hjoins : f.Joins (base + f.size) (base + f.size + 1) False True
      [⟨base + f.size, f.entry⟩, ⟨f.exit, f.entry⟩, ⟨f.exit, base + f.size + 1⟩] :=
    ⟨by simp, by simp, by simp, by simp, by simp⟩
  refine (recognizes_around h hjoins).congr fun w => exists_congr fun n => ?_
  simp only [imp_false, implies_true, true_and, Nat.one_le_iff_ne_zero, ne_eq]

/-- With a jump past the pattern as well, any number of times. -/
theorem recognizes_zeroOrMore (h : f.Recognizes base L) :
    (Fragment.zeroOrMore base f).Recognizes base fun w => ∃ n, Times L n w := by
  have hjoins : f.Joins (base + f.size) (base + f.size + 1) True True
      [⟨base + f.size, f.entry⟩, ⟨base + f.size, base + f.size + 1⟩, ⟨f.exit, f.entry⟩,
        ⟨f.exit, base + f.size + 1⟩] :=
    ⟨by simp, by simp, by simp, by simp, by simp⟩
  refine (recognizes_around h hjoins).congr fun w => exists_congr fun n => ?_
  simp only [implies_true, true_and]

/-- With only a jump past the pattern, at most once. -/
theorem recognizes_zeroOrOne (h : f.Recognizes base L) :
    (Fragment.zeroOrOne base f).Recognizes base fun w => ∃ n, n ≤ 1 ∧ Times L n w := by
  have hjoins : f.Joins (base + f.size) (base + f.size + 1) True False
      [⟨base + f.size, f.entry⟩, ⟨base + f.size, base + f.size + 1⟩,
        ⟨f.exit, base + f.size + 1⟩] :=
    ⟨by simp, by simp, by simp, by simp, by simp⟩
  refine (recognizes_around h hjoins).congr fun w => exists_congr fun n => ?_
  simp only [implies_true, imp_false, true_and, Nat.not_lt]

/-! ### Bounded repetitions -/

/-- One more copy adds the jumps of its fragment, the jump to its entry and the jump that leaves the
row before it. -/
theorem mem_optionalChain_cons {exit : Nat} {e : Jump} :
    e ∈ optionalChain current exit (f :: fs) ↔ e ∈ f.jumps ∨ e = ⟨current, exit⟩ ∨
      e = ⟨current, f.entry⟩ ∨ e ∈ optionalChain f.exit exit fs := by
  rw [optionalChain, List.mem_append, List.mem_cons, List.mem_cons]

namespace Consecutive

variable {exit : Nat}

/-- The jumps of the row stay within the copies, the start and the exit. -/
theorem optionalChain (h : Consecutive base fs Ls) {e : Jump}
    (he : e ∈ optionalChain current exit fs) :
    (e.source = current ∨ base ≤ e.source ∧ e.source < base + sizeAll fs) ∧
      (e.target = exit ∨ base ≤ e.target ∧ e.target < base + sizeAll fs) := by
  induction h generalizing current with
  | nil =>
    rw [List.mem_singleton.1 he]
    exact ⟨Or.inl rfl, Or.inl rfl⟩
  | @cons base f fs L Ls head tail ih =>
    have hentry := head.entry
    have hexit := head.exit
    simp only [Within] at hentry hexit
    rw [sizeAll_cons]
    rcases mem_optionalChain_cons.1 he with he | rfl | rfl | he
    · have := head.jump e he
      simp only [Inside, Within] at this
      omega
    · exact ⟨Or.inl rfl, Or.inl rfl⟩
    · exact ⟨Or.inl rfl, Or.inr ⟨hentry.1, show f.entry < _ by omega⟩⟩
    · have := ih he
      omega

/-- A text of the first copies has a path: through these copies, and then out of the row. -/
theorem path_optionalChain (h : Consecutive base fs Ls)
    (hg : g.Includes (fs.flatMap moves) (Fragment.optionalChain current exit fs)) {k : Nat}
    (hw : InSeq id (Ls.take k) w) : g.Path current w exit := by
  induction h generalizing current k w with
  | nil =>
    rw [List.take_nil] at hw
    rw [show w = [] from hw]
    exact .jump (hg.jump List.mem_cons_self) (.refl _)
  | @cons base f fs L Ls head tail ih =>
    have hleave : g.jump current exit := hg.jump (mem_optionalChain_cons.2 (Or.inr (Or.inl rfl)))
    have henter : g.jump current f.entry :=
      hg.jump (mem_optionalChain_cons.2 (Or.inr (Or.inr (Or.inl rfl))))
    cases k with
    | zero =>
      rw [show w = [] from hw]
      exact .jump hleave (.refl _)
    | succ k =>
      -- The chain is entered, and its first fragment reads the first part.
      obtain ⟨u, v, rfl, hu, hv⟩ := hw
      have hhead : g.Includes f.moves f.jumps :=
        hg.mono (fun e he => List.mem_append_left _ he)
          fun e he => mem_optionalChain_cons.2 (Or.inl he)
      have htail : g.Includes (fs.flatMap moves) (Fragment.optionalChain f.exit exit fs) :=
        hg.mono (fun e he => List.mem_append_right _ he)
          fun e he => mem_optionalChain_cons.2 (Or.inr (Or.inr (Or.inr he)))
      exact .jump henter ((head.complete hhead hu).trans (ih htail hv))

/-- From the state before them, the fragments that are left are passed by, or the first of them is
entered. -/
theorem eq_of_mem_optionalChain (head : f.Recognizes base L)
    (tail : Consecutive (base + f.size) fs Ls) (hcurrent : current < base) {q : Nat}
    (hq : ⟨current, q⟩ ∈ Fragment.optionalChain current exit (f :: fs)) :
    q = exit ∨ q = f.entry := by
  have hfexit := head.exit
  simp only [Within] at hfexit
  rcases mem_optionalChain_cons.1 hq with hq | hq | hq | hq
  · have := (head.jump _ hq).1
    simp only [Inside] at this
    omega
  · cases hq
    exact Or.inl rfl
  · cases hq
    exact Or.inr rfl
  · have := (tail.optionalChain hq).1
    simp only at this
    omega

/-- The first fragment is left by its own edges only. -/
theorem only_first_option (tail : Consecutive (base + f.size) fs Ls) (hcurrent : current < base)
    (honly : g.Only (fun s => s = current ∨ base ≤ s ∧ s < base + (f.size + sizeAll fs))
      ((f :: fs).flatMap moves) (Fragment.optionalChain current exit (f :: fs))) :
    g.Only (f.Inside base) f.moves f.jumps := by
  refine tail.only_head honly (fun s hs => ?_) fun e he hs => ?_
  · simp only [Inside] at hs
    omega
  · simp only [Inside] at hs
    rcases mem_optionalChain_cons.1 he with he | rfl | rfl | he
    · exact he
    · simp only at hs
      omega
    · simp only at hs
      omega
    · have := (tail.optionalChain he).1
      omega

/-- The others, and the exit of the first fragment, are left by the edges of the others only. -/
theorem only_later_options (head : f.Recognizes base L) (hcurrent : current < base)
    (honly : g.Only (fun s => s = current ∨ base ≤ s ∧ s < base + (f.size + sizeAll fs))
      ((f :: fs).flatMap moves) (Fragment.optionalChain current exit (f :: fs))) :
    g.Only (fun s => s = f.exit ∨ base + f.size ≤ s ∧ s < base + f.size + sizeAll fs)
      (fs.flatMap moves) (Fragment.optionalChain f.exit exit fs) := by
  have hfexit := head.exit
  simp only [Within] at hfexit
  refine only_tail head.toFits honly (fun s hs => by omega) (fun s hs hin => ?_) fun e he hs => ?_
  · simp only [Inside] at hin
    omega
  · rcases mem_optionalChain_cons.1 he with he | rfl | rfl | he
    · have := (head.jump e he).1
      simp only [Inside] at this
      omega
    · simp only at hs
      omega
    · simp only at hs
      omega
    · exact he

/-- A path through fragments that may be left out reads words of the first of them. -/
theorem exists_optionalChain (h : Consecutive base fs Ls) (hcurrent : current < base)
    (hexit : exit < base)
    (honly : g.Only (fun s => s = current ∨ base ≤ s ∧ s < base + sizeAll fs) (fs.flatMap moves)
      (Fragment.optionalChain current exit fs))
    (ht : ¬(t = current ∨ base ≤ t ∧ t < base + sizeAll fs)) (hsteps : g.Steps n current w t) :
    ∃ u v m, w = u ++ v ∧ m ≤ n ∧ (∃ k, k ≤ Ls.length ∧ InSeq id (Ls.take k) u) ∧
      g.Steps m exit v t := by
  induction h generalizing current n w with
  | nil =>
    obtain ⟨q, m, rfl, hmem, hrest⟩ :=
      hsteps.exists_jump (fun heq => ht (Or.inl heq.symm)) honly (Or.inl rfl) fun e he => nomatch he
    cases List.mem_singleton.1 hmem
    exact ⟨[], w, m, rfl, Nat.le_succ m, ⟨0, Nat.le_refl _, rfl⟩, hrest⟩
  | @cons base f fs L Ls head tail ih =>
    have hfexit := head.exit
    simp only [Within] at hfexit
    rw [sizeAll_cons] at honly ht
    obtain ⟨q, m, rfl, hmem, hrest⟩ :=
      hsteps.exists_jump (fun heq => ht (Or.inl heq.symm)) honly (Or.inl rfl) fun e he => by
        have := ((Consecutive.cons head tail).move he).1
        omega
    -- From here a jump leaves the chain, or enters its next fragment.
    rcases eq_of_mem_optionalChain head tail hcurrent hmem with rfl | rfl
    · exact ⟨[], w, m, rfl, Nat.le_succ m, ⟨0, Nat.zero_le _, rfl⟩, hrest⟩
    · obtain ⟨u, v, j, rfl, hj, hu, hfrom⟩ :=
        head.sound (only_first_option tail hcurrent honly) (fun hs => by
          simp only [Inside] at hs
          omega) hrest
      obtain ⟨x, y, i, rfl, hi, ⟨k, hk, hx⟩, hto⟩ :=
        ih (by omega) (by omega) (only_later_options head hcurrent honly) (by omega) hfrom
      exact ⟨u ++ x, y, i, by rw [List.append_assoc], by omega,
        ⟨k + 1, Nat.succ_le_succ hk, u, x, rfl, hu, hx⟩, hto⟩

/-- The row connects the start and the exit by the texts of any number of its first copies. -/
theorem connects_optionalChain (h : Consecutive base fs Ls) (hcurrent : current < base)
    (hexit : exit < base) :
    Connects base (sizeAll fs) current exit (fs.flatMap moves)
      (Fragment.optionalChain current exit fs)
      fun w => ∃ k, k ≤ Ls.length ∧ InSeq id (Ls.take k) w where
  move _ he := h.move he
  jump _ he := h.optionalChain he
  nodup := h.nodup
  complete := fun hg ⟨_, _, hw⟩ => h.path_optionalChain hg hw
  sound := h.exists_optionalChain hcurrent hexit

end Consecutive

/-- Fragments in a row, and then what connects the end of the row with the exit behind it. -/
theorem recognizes_chain {size x : Nat} {moves : List Move} {jumps : List Jump}
    (hneeded : Consecutive (base + 1) fs Ls) (hx : x = base + 1 + sizeAll fs)
    (h : Connects (x + 1) size (chainEnd base fs) x moves jumps L) :
    Recognizes ⟨sizeAll fs + size + 2, base, x, fs.flatMap Fragment.moves ++ moves,
      chain base fs ++ jumps⟩ base fun w => ∃ u v, w = u ++ v ∧ InSeq id Ls u ∧ L v := by
  have hend := hneeded.chainEnd_eq_or base
  have hinside : ∀ s, Consecutive.InChain (base + 1) base fs s →
      base ≤ s ∧ s < base + (sizeAll fs + size + 2) ∧ s ≠ x := by
    intro s hs
    simp only [Consecutive.InChain] at hs
    omega
  refine {
    entry := ?_, exit := ?_, move := fun e he => ?_, jump := fun e he => ?_
    sets := fun e he => ?_, nodup := ?_, complete := ?_, sound := ?_ }
  · simp only [Within]
    omega
  · simp only [Within]
    omega
  · simp only [Inside, Within]
    rcases List.mem_append.1 he with he | he
    · obtain ⟨hsource, htarget, -⟩ := hneeded.move he
      omega
    · obtain ⟨hsource, htarget, -⟩ := h.move e he
      omega
  · simp only [Inside, Within]
    rcases List.mem_append.1 he with he | he
    · obtain ⟨hsource, htarget⟩ := hneeded.chain (by omega) he
      have := hinside _ hsource
      omega
    · have := h.jump e he
      omega
  · rcases List.mem_append.1 he with he | he
    · exact (hneeded.move he).2.2
    · exact (h.move e he).2.2
  · rw [List.map_append]
    refine List.nodup_append.2 ⟨hneeded.nodup, h.nodup, fun p hp q hq => ?_⟩
    obtain ⟨e, he, rfl⟩ := List.mem_map.1 hp
    obtain ⟨e', he', rfl⟩ := List.mem_map.1 hq
    have := (hneeded.move he).1
    have := (h.move e' he').1
    omega
  · rintro g w hg ⟨u, v, hw, hu, hv⟩
    rw [hw]
    exact (hneeded.path_chain hg.left hu).trans (h.complete hg.right hv)
  · intro g n t w honly ht hsteps
    simp only [Inside] at ht
    -- The end of the row belongs to what follows: the row has no edge that leaves it.
    have hfirst : g.Only (Consecutive.InChain (base + 1) base fs) (fs.flatMap Fragment.moves)
        (chain base fs) := by
      refine honly.left hinside (fun e he hs => ?_) fun e he hs => ?_
      · have := (h.move e he).1
        simp only [Consecutive.InChain] at hs
        omega
      · have := (h.jump e he).1
        simp only [Consecutive.InChain] at hs
        omega
    have hthen : g.Only (fun s => s = chainEnd base fs ∨ x + 1 ≤ s ∧ s < x + 1 + size) moves
        jumps := by
      refine honly.right (fun s hs => ?_) (fun e he hs => ?_) fun e he hs => ?_
      · simp only [Inside]
        omega
      · have := (hneeded.move he).1
        have := hneeded.move_ne_chainEnd (show base < _ by omega) he
        omega
      · obtain ⟨hsource, -⟩ := hneeded.chain (by omega) he
        simp only [Consecutive.InChain] at hsource
        omega
    -- The path goes through the row to its end, and from there to the exit.
    obtain ⟨u, v, m, rfl, hm, hu, hfrom⟩ :=
      hneeded.exists_chain (by omega) hfirst (fun hs => ht (hinside _ hs)) hsteps
    obtain ⟨y, z, j, rfl, hj, hy, hto⟩ := h.sound hthen (by omega) hfrom
    exact ⟨u ++ y, z, j, by rw [List.append_assoc], by omega, ⟨u, y, rfl, hu, hy⟩, hto⟩

/-- Copies of one pattern lie in consecutive blocks. -/
theorem consecutive_copies {build : Nat → Fragment} (h : ∀ b, (build b).Recognizes b L)
    (n base : Nat) : Consecutive base (copies build n base) (List.replicate n L) := by
  induction n generalizing base with
  | zero => exact .nil base
  | succ n ih => exact .cons (h base) (ih (base + (build base).size))

/-- The end of a row of copies lies within the row. -/
theorem chainEnd_copies_lt {build : Nat → Fragment} (h : ∀ b, (build b).Recognizes b L)
    (n base : Nat) :
    chainEnd base (copies build n (base + 1)) <
      base + 1 + sizeAll (copies build n (base + 1)) := by
  have := (consecutive_copies h n (base + 1)).chainEnd_eq_or base
  omega

/-- Copies that are needed, and then copies that may be left out. -/
theorem recognizes_between {build : Nat → Fragment} (h : ∀ b, (build b).Recognizes b L)
    {least most : Nat} (hle : least ≤ most) (base : Nat) :
    (Fragment.between least most build base).Recognizes base
      fun w => ∃ n, least ≤ n ∧ n ≤ most ∧ Times L n w := by
  have hend := chainEnd_copies_lt h least base
  -- The copies that may be left out start behind the exit, which follows the ones that may not.
  have hothers := (consecutive_copies h (most - least)
    (base + 1 + sizeAll (copies build least (base + 1)) + 1)).connects_optionalChain
    (Nat.lt_succ_of_lt hend) (Nat.lt_succ_self _)
  refine (recognizes_chain (consecutive_copies h least (base + 1)) rfl hothers).congr fun w => ?_
  rw [List.length_replicate]
  constructor
  · rintro ⟨u, v, rfl, hu, k, hk, hv⟩
    rw [List.take_replicate, Nat.min_eq_left hk] at hv
    refine ⟨least + k, Nat.le_add_right _ _, by omega, ?_⟩
    exact times_append (inSeq_replicate_iff.1 hu) (inSeq_replicate_iff.1 hv)
  · rintro ⟨n, hleast, hmost, hw⟩
    obtain ⟨k, rfl⟩ : ∃ k, n = least + k := ⟨n - least, by omega⟩
    obtain ⟨u, v, rfl, hu, hv⟩ := exists_of_times_add hw
    refine ⟨u, v, rfl, inSeq_replicate_iff.2 hu, k, by omega, ?_⟩
    rw [List.take_replicate, Nat.min_eq_left (by omega)]
    exact inSeq_replicate_iff.2 hv

/-- Copies that are needed, and then one that may be repeated. -/
theorem recognizes_atLeast {build : Nat → Fragment} (h : ∀ b, (build b).Recognizes b L)
    (least base : Nat) :
    (Fragment.atLeast least build base).Recognizes base
      fun w => ∃ n, least ≤ n ∧ Times L n w := by
  have hneeded := consecutive_copies h least (base + 1)
  have hend := chainEnd_copies_lt h least base
  unfold Fragment.atLeast
  simp only
  generalize copies build least (base + 1) = needed at *
  generalize hx : base + 1 + sizeAll needed = x at *
  have hf := h (x + 1)
  generalize build (x + 1) = f at *
  have hjoins : f.Joins (chainEnd base needed) x True True
      [⟨chainEnd base needed, f.entry⟩, ⟨chainEnd base needed, x⟩, ⟨f.exit, f.entry⟩,
        ⟨f.exit, x⟩] :=
    ⟨by simp, by simp, by simp, by simp, by simp⟩
  -- One more copy with a way past it and a way back allows any number of further words.
  have hloop := connects_joins hf hjoins fun hs => by
    have := hs.1
    omega
  rw [List.append_assoc]
  refine (recognizes_chain hneeded hx.symm hloop).congr fun w => ?_
  constructor
  · rintro ⟨u, v, rfl, hu, k, -, -, hv⟩
    exact ⟨least + k, Nat.le_add_right _ _, times_append (inSeq_replicate_iff.1 hu) hv⟩
  · rintro ⟨n, hleast, hw⟩
    obtain ⟨k, rfl⟩ : ∃ k, n = least + k := ⟨n - least, by omega⟩
    obtain ⟨u, v, rfl, hu, hv⟩ := exists_of_times_add hw
    exact ⟨u, v, rfl, inSeq_replicate_iff.2 hu, k, fun _ => trivial, fun _ => trivial, hv⟩

/-- A repetition recognizes the words that consist of an allowed number of words. -/
theorem recognizes_repeated {build : Nat → Fragment} (h : ∀ b, (build b).Recognizes b L)
    {count : Count} (hcount : count.Proper) (base : Nat) :
    (Fragment.repeated build base count).Recognizes base
      fun w => ∃ n, count.Allows n ∧ Times L n w := by
  cases count with
  | oneOrMore => exact recognizes_oneOrMore (h base)
  | zeroOrMore =>
    refine (recognizes_zeroOrMore (h base)).congr fun w => ?_
    simp only [Count.Allows, true_and]
  | zeroOrOne => exact recognizes_zeroOrOne (h base)
  | range least most =>
    cases most with
    | none =>
      refine (recognizes_atLeast h least base).congr fun w => ?_
      simp only [Count.Allows, reduceCtorEq, false_implies, implies_true, and_true]
    | some most =>
      refine (recognizes_between h hcount base).congr fun w => ?_
      simp only [Count.Allows, Option.some.injEq, forall_eq', and_assoc]

end Fragment

end Lexwright

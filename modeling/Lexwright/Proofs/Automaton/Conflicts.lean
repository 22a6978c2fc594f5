import Lexwright.Automaton.Closure
import Mathlib.Data.List.Induction

/-!
# `Lexwright.Proofs.Automaton.Conflicts`: the rule that a set of states accepts

The members of a set are gone through in the order of their numbers, and of the rules that they
accept the one of the lowest ordinal is kept. Every rule is compared with the kept one, and with no
other. So two rules of one ordinal are a conflict if no rule of a lower ordinal stands before the
second of them. If one does, they are passed over, and whether it does depends on the numbers of the
states (`Engine.clash_passed_over`).

* `Accept.Clashes`: two rules of one ordinal that are not the same.
* `Automaton.Exposed`: the condition under which a conflict is met.
* `Automaton.Met`: what is known when some members were gone through; `Met.concat` adds one member,
  and `met_acceptOf` goes through all of them.
* `Engine.acceptOf_exact`: what a set accepts, and when it does not depend on the numbers.
* `Engine.acceptOf_eq`: a set whose rules have distinct ordinals accepts the lowest of them.
-/

set_option autoImplicit false

namespace Lexwright

/-- Two rules of one ordinal that are not the same. -/
def Accept.Clashes (x y : Accept) : Prop :=
  x.ordinal = y.ordinal ∧ (x.rule ≠ y.rule ∨ x.kind ≠ y.kind)

instance (x y : Accept) : Decidable (x.Clashes y) := inferInstanceAs (Decidable (_ ∧ _))

/-- Two accepted rules clash if they differ and have the same ordinal. -/
theorem Accept.clashes_iff {x y : Accept} : x.Clashes y ↔ x.ordinal = y.ordinal ∧ x ≠ y := by
  refine and_congr_right fun hordinal => ?_
  constructor
  · rintro hne rfl
    exact hne.elim (absurd rfl) (absurd rfl)
  · intro hne
    refine Classical.byContradiction fun hsame => hne ?_
    obtain ⟨hrule, hkind⟩ := not_or.1 hsame
    cases x
    cases y
    cases hordinal
    cases Classical.not_not.1 hrule
    cases Classical.not_not.1 hkind
    rfl

/-- Clashes are mutual. -/
theorem Accept.Clashes.symm {x y : Accept} (h : x.Clashes y) : y.Clashes x := by
  obtain ⟨hordinal, hne⟩ := Accept.clashes_iff.1 h
  exact Accept.clashes_iff.2 ⟨hordinal.symm, hne.symm⟩

variable {a : Automaton} {set : StateSet} {members : List Nat} {q : Nat} {x y : Accept}

namespace Automaton

/-- A member of the list accepts the rule. -/
def AcceptsIn (a : Automaton) (members : List Nat) (acc : Accept) : Prop :=
  ∃ q ∈ members, a.accept? q = some acc

/-- A member of the set accepts the rule. -/
def Accepts (a : Automaton) (set : StateSet) (acc : Accept) : Prop :=
  ∃ q ∈ set, a.accept? q = some acc

/-- The rule, if there is one, has the lowest ordinal of those that members of the set accept;
else they accept none. -/
def AcceptsLowest (a : Automaton) (set : StateSet) : Option Accept → Prop
  | some acc => a.Accepts set acc ∧ ∀ acc', a.Accepts set acc' → acc.ordinal ≤ acc'.ordinal
  | none => ∀ acc, ¬a.Accepts set acc

/-- Members of the set accept rules that clash. -/
def Conflicted (a : Automaton) (set : StateSet) : Prop :=
  ∃ x y, a.Accepts set x ∧ a.Accepts set y ∧ x.Clashes y

/-- Two members accept rules that clash, and no member before the second of them accepts a rule of a
lower ordinal. -/
def Exposed (a : Automaton) (members : List Nat) : Prop :=
  ∃ p ∈ members, ∃ q ∈ members, p < q ∧ ∃ x y, a.accept? p = some x ∧ a.accept? q = some y ∧
    x.Clashes y ∧ ∀ r ∈ members, r < q → ∀ z, a.accept? r = some z → x.ordinal ≤ z.ordinal

/-- The accepted rules of a set are those of its members. -/
theorem accepts_iff_mem : a.Accepts set x ↔ x ∈ set.toList.filterMap a.accept? :=
  List.mem_filterMap.symm

/-- If rules that members of the set accept clash, then some of the lowest ordinal do. -/
def ClashesLow (a : Automaton) (set : StateSet) : Prop :=
  a.Conflicted set → ∃ x y, a.Accepts set x ∧ a.Accepts set y ∧ x.Clashes y ∧
    ∀ z, a.Accepts set z → x.ordinal ≤ z.ordinal

/-- A clash that is exposed is one. -/
theorem Exposed.conflicted (h : a.Exposed set.toList) : a.Conflicted set := by
  obtain ⟨p, hp, q, hq, -, x, y, hx, hy, hclash, -⟩ := h
  exact ⟨x, y, ⟨p, hp, hx⟩, ⟨q, hq, hy⟩, hclash⟩

/-- No rule of a lower ordinal can stand before two rules of the lowest one. -/
theorem ClashesLow.exposed_iff (h : a.ClashesLow set) :
    a.Exposed set.toList ↔ a.Conflicted set := by
  refine ⟨Exposed.conflicted, fun hconflicted => ?_⟩
  obtain ⟨x, y, ⟨p, hp, hx⟩, ⟨q, hq, hy⟩, hclash, hlow⟩ := h hconflicted
  rcases Nat.lt_trichotomy p q with hlt | rfl | hlt
  · exact ⟨p, hp, q, hq, hlt, x, y, hx, hy, hclash, fun r hr _ z hz => hlow z ⟨r, hr, hz⟩⟩
  · exact absurd (Option.some.inj (hx.symm.trans hy)) (Accept.clashes_iff.1 hclash).2
  · refine ⟨q, hq, p, hp, hlt, y, x, hy, hx, hclash.symm, fun r hr _ z hz => ?_⟩
    rw [← hclash.1]
    exact hlow z ⟨r, hr, hz⟩

/-- Whether there is a clash at the lowest ordinal depends on the accepted rules only. -/
theorem ClashesLow.congr {a' : Automaton} {set' : StateSet} (h : a.ClashesLow set)
    (heq : a'.Accepts set' = a.Accepts set) : a'.ClashesLow set' := by
  unfold ClashesLow Conflicted
  rw [heq]
  exact h

/-! ### One more member -/

/-- One more member adds the rule that it accepts. -/
theorem acceptsIn_concat :
    a.AcceptsIn (members ++ [q]) x ↔ a.AcceptsIn members x ∨ a.accept? q = some x := by
  unfold AcceptsIn
  simp only [List.mem_append, List.mem_singleton, or_and_right, exists_or, exists_eq_left]

/-- A member behind all others exposes a conflict if its rule clashes with a rule of the lowest
ordinal before it. -/
theorem exposed_concat (hlast : ∀ p ∈ members, p < q) :
    a.Exposed (members ++ [q]) ↔ a.Exposed members ∨ ∃ y, a.accept? q = some y ∧
      ∃ x, a.AcceptsIn members x ∧ x.Clashes y ∧
        ∀ z, a.AcceptsIn members z → x.ordinal ≤ z.ordinal := by
  -- Whoever comes before a member of the new list is one of the old members.
  have hold : ∀ {r s : Nat}, r ∈ members ++ [q] → s ∈ members ++ [q] → r < s → r ∈ members := by
    intro r s hr hs hlt
    rcases List.mem_append.1 hr with hr | hr
    · exact hr
    · cases List.mem_singleton.1 hr
      rcases List.mem_append.1 hs with hs | hs
      · exact absurd (hlast s hs) (Nat.not_lt_of_lt hlt)
      · exact absurd (List.mem_singleton.1 hs) (Nat.ne_of_gt hlt)
  constructor
  · rintro ⟨p, hp, s, hs, hlt, x, y, hx, hy, hclash, hlow⟩
    have hp := hold hp hs hlt
    rcases List.mem_append.1 hs with hs | hs
    · exact Or.inl ⟨p, hp, s, hs, hlt, x, y, hx, hy, hclash,
        fun r hr => hlow r (List.mem_append_left _ hr)⟩
    · cases List.mem_singleton.1 hs
      exact Or.inr ⟨y, hy, x, ⟨p, hp, hx⟩, hclash, fun z ⟨r, hr, hz⟩ =>
        hlow r (List.mem_append_left _ hr) (hlast r hr) z hz⟩
  · rintro (⟨p, hp, s, hs, hlt, x, y, hx, hy, hclash, hlow⟩ | ⟨y, hy, x, ⟨p, hp, hx⟩, hclash, hlow⟩)
    · have hs' : s ∈ members ++ [q] := List.mem_append_left _ hs
      exact ⟨p, List.mem_append_left _ hp, s, hs', hlt, x, y, hx, hy, hclash,
        fun r hr hrs => hlow r (hold hr hs' hrs) hrs⟩
    · have hq : q ∈ members ++ [q] := List.mem_append_right _ List.mem_cons_self
      exact ⟨p, List.mem_append_left _ hp, q, hq, hlast p hp, x, y, hx, hy, hclash,
        fun r hr hrq z hz => hlow z ⟨r, hold hr hq hrq, hz⟩⟩

/-- What is known when the members of a list were gone through: an exposed conflict, or the one rule
of the lowest ordinal. -/
def Met (a : Automaton) (set : StateSet) (members : List Nat) :
    Except Conflict (Option Accept) → Prop
  | .error c => a.Exposed members ∧ ∃ x y, a.AcceptsIn members x ∧ a.AcceptsIn members y ∧
      x.Clashes y ∧ c = ⟨x.rule, y.rule, set, x.ordinal⟩
  | .ok none => ∀ acc, ¬a.AcceptsIn members acc
  | .ok (some b) => ¬a.Exposed members ∧ a.AcceptsIn members b ∧
      ∀ z, a.AcceptsIn members z → b.ordinal ≤ z.ordinal ∧ (z.ordinal = b.ordinal → z = b)

/-- Where no rule is accepted, no clash is exposed. -/
theorem not_exposed_of_not_acceptsIn (h : ∀ acc, ¬a.AcceptsIn members acc) :
    ¬a.Exposed members :=
  fun ⟨p, hp, _, _, _, x, _, hx, _⟩ => h x ⟨p, hp, hx⟩

/-- A member that accepts no rule changes nothing. -/
theorem Met.concat_none {r : Except Conflict (Option Accept)} (hlast : ∀ p ∈ members, p < q)
    (hq : a.accept? q = none) (h : a.Met set members r) : a.Met set (members ++ [q]) r := by
  have haccepts : ∀ z, a.AcceptsIn (members ++ [q]) z ↔ a.AcceptsIn members z := fun z => by
    rw [acceptsIn_concat, hq]
    exact or_iff_left nofun
  have hexposed : a.Exposed (members ++ [q]) ↔ a.Exposed members := by
    rw [exposed_concat hlast, hq]
    exact or_iff_left fun ⟨_, hy, _⟩ => nomatch hy
  cases r with
  | error c => simpa only [Met, hexposed, haccepts] using h
  | ok best =>
    cases best with
    | none => simpa only [Met, haccepts] using h
    | some b => simpa only [Met, hexposed, haccepts] using h

section Accepting

variable {b z : Accept}

/-- A member that accepts a rule adds this rule only. -/
theorem acceptsIn_concat_of_some (hq : a.accept? q = some y) :
    a.AcceptsIn (members ++ [q]) z ↔ a.AcceptsIn members z ∨ z = y := by
  rw [acceptsIn_concat, hq, Option.some.injEq, eq_comm]

/-- Where nothing was exposed before, it is the new rule that exposes a conflict. -/
theorem exposed_concat_of_some (hlast : ∀ p ∈ members, p < q) (hq : a.accept? q = some y)
    (hnot : ¬a.Exposed members) : a.Exposed (members ++ [q]) ↔
      ∃ x, a.AcceptsIn members x ∧ x.Clashes y ∧
        ∀ z, a.AcceptsIn members z → x.ordinal ≤ z.ordinal := by
  rw [exposed_concat hlast, or_iff_right hnot, hq]
  simp only [Option.some.injEq, exists_eq_left']

/-- The first rule of all is kept. -/
theorem Met.concat_first (hlast : ∀ p ∈ members, p < q) (hq : a.accept? q = some y)
    (h : a.Met set members (.ok none)) : a.Met set (members ++ [q]) (.ok (some y)) := by
  refine ⟨?_, (acceptsIn_concat_of_some hq).2 (Or.inr rfl), fun z hz => ?_⟩
  · rw [exposed_concat_of_some hlast hq (not_exposed_of_not_acceptsIn h)]
    exact fun ⟨x, hx, _⟩ => h x hx
  · cases ((acceptsIn_concat_of_some hq).1 hz).resolve_left (h z)
    exact ⟨Nat.le_refl _, fun _ => rfl⟩

/-- A rule of a lower ordinal takes the place of the kept one. -/
theorem Met.concat_lower (hlast : ∀ p ∈ members, p < q) (hq : a.accept? q = some y)
    (h : a.Met set members (.ok (some b))) (hlt : y.ordinal < b.ordinal) :
    a.Met set (members ++ [q]) (.ok (some y)) := by
  obtain ⟨hnot, hb, hlow⟩ := h
  refine ⟨?_, (acceptsIn_concat_of_some hq).2 (Or.inr rfl), fun z hz => ?_⟩
  · rw [exposed_concat_of_some hlast hq hnot]
    rintro ⟨x, hx, hclash, -⟩
    have := (hlow x hx).1
    have := hclash.1
    omega
  · rcases (acceptsIn_concat_of_some hq).1 hz with hz | rfl
    · have := (hlow z hz).1
      exact ⟨by omega, by omega⟩
    · exact ⟨Nat.le_refl _, fun _ => rfl⟩

/-- A rule that clashes with the kept one is a conflict. -/
theorem Met.concat_clash (hlast : ∀ p ∈ members, p < q) (hq : a.accept? q = some y)
    (h : a.Met set members (.ok (some b))) (hclash : b.Clashes y) :
    a.Met set (members ++ [q]) (.error ⟨b.rule, y.rule, set, b.ordinal⟩) := by
  obtain ⟨hnot, hb, hlow⟩ := h
  refine ⟨?_, b, y, ?_, ?_, hclash, rfl⟩
  · rw [exposed_concat_of_some hlast hq hnot]
    exact ⟨b, hb, hclash, fun z hz => (hlow z hz).1⟩
  · exact (acceptsIn_concat_of_some hq).2 (Or.inl hb)
  · exact (acceptsIn_concat_of_some hq).2 (Or.inr rfl)

/-- Of the kept rule and a rule that is not lower and does not clash with it, the kept one stays. -/
theorem Met.concat_higher (hlast : ∀ p ∈ members, p < q) (hq : a.accept? q = some y)
    (h : a.Met set members (.ok (some b))) (hle : b.ordinal ≤ y.ordinal)
    (hsame : y.ordinal = b.ordinal → y = b) : a.Met set (members ++ [q]) (.ok (some b)) := by
  obtain ⟨hnot, hb, hlow⟩ := h
  refine ⟨?_, (acceptsIn_concat_of_some hq).2 (Or.inl hb), fun z hz => ?_⟩
  · rw [exposed_concat_of_some hlast hq hnot]
    rintro ⟨x, hx, hclash, hxlow⟩
    -- A rule of the lowest ordinal is the kept one, and that one does not clash.
    obtain ⟨hge, honly⟩ := hlow x hx
    cases honly (Nat.le_antisymm (hxlow b hb) hge)
    obtain ⟨hordinal, hne⟩ := Accept.clashes_iff.1 hclash
    exact hne (hsame hordinal.symm).symm
  · rcases (acceptsIn_concat_of_some hq).1 hz with hz | rfl
    · exact hlow z hz
    · exact ⟨hle, hsame⟩

/-- A member that accepts a rule, by what is done with the rule. -/
theorem Met.concat_some {best : Option Accept} (hlast : ∀ p ∈ members, p < q)
    (hq : a.accept? q = some y) (h : a.Met set members (.ok best)) :
    a.Met set (members ++ [q]) (Engine.better set best y) := by
  unfold Engine.better
  cases best with
  | none => exact h.concat_first hlast hq
  | some b =>
    simp only
    by_cases hlt : y.ordinal < b.ordinal
    · rw [if_pos hlt]
      exact h.concat_lower hlast hq hlt
    · rw [if_neg hlt]
      by_cases hclash : y.ordinal = b.ordinal ∧ (y.rule ≠ b.rule ∨ y.kind ≠ b.kind)
      · rw [if_pos hclash, hclash.1]
        exact h.concat_clash hlast hq (Accept.Clashes.symm hclash)
      · rw [if_neg hclash]
        refine h.concat_higher hlast hq (Nat.le_of_not_lt hlt) fun hordinal => ?_
        exact Classical.byContradiction fun hne => hclash (Accept.clashes_iff.2 ⟨hordinal, hne⟩)

end Accepting

/-- One more member, behind the members gone through. -/
theorem Met.concat {r : Except Conflict (Option Accept)} (hlast : ∀ p ∈ members, p < q)
    (h : a.Met set members r) : a.Met set (members ++ [q])
      (r >>= fun best => ([q].filterMap a.accept?).foldlM (Engine.better set) best) := by
  cases hq : a.accept? q with
  | none =>
    have hnil : [q].filterMap a.accept? = [] := by simp [hq]
    rw [hnil]
    cases r with
    | error c => exact h.concat_none hlast hq
    | ok best => exact h.concat_none hlast hq
  | some y =>
    have hone : [q].filterMap a.accept? = [y] := by simp [hq]
    rw [hone]
    cases r with
    | error c =>
      -- A clash that was met stays one.
      obtain ⟨hexposed, x, z, hx, hz, hclash⟩ := h
      exact ⟨(exposed_concat hlast).2 (Or.inl hexposed), x, z, acceptsIn_concat.2 (Or.inl hx),
        acceptsIn_concat.2 (Or.inl hz), hclash⟩
    | ok best =>
      have hstep : ((Except.ok best : Except Conflict (Option Accept)) >>= fun best =>
          [y].foldlM (Engine.better set) best) = Engine.better set best y := by
        show [y].foldlM (Engine.better set) best = _
        rw [List.foldlM_cons]
        exact bind_pure _
      rw [hstep]
      exact h.concat_some hlast hq

/-- All the members, one after the other. -/
theorem met_foldlM (set : StateSet) (hmembers : members.Pairwise (· < ·)) :
    a.Met set members ((members.filterMap a.accept?).foldlM (Engine.better set) none) := by
  induction members using List.reverseRecOn with
  | nil => exact fun acc ⟨q, hq, _⟩ => absurd hq List.not_mem_nil
  | append_singleton members q ih =>
    obtain ⟨hbefore, -, hlast⟩ := List.pairwise_append.1 hmembers
    rw [List.filterMap_append, List.foldlM_append]
    exact (ih hbefore).concat fun p hp => hlast p hp q List.mem_cons_self

end Automaton

namespace Engine

variable {e : Engine}

/-- The answer for a set is what its members come to, by induction on the members. -/
theorem met_acceptOf (e : Engine) (set : StateSet) :
    e.automaton.Met set set.toList (e.acceptOf set) :=
  Automaton.met_foldlM set (set.increasing.imp fun h => of_decide_eq_true h)

/-- There is an error when a conflict is met. -/
theorem exists_error_iff :
    (∃ c, e.acceptOf set = .error c) ↔ e.automaton.Exposed set.toList := by
  have h := met_acceptOf e set
  cases hr : e.acceptOf set with
  | error c =>
    rw [hr] at h
    exact iff_of_true ⟨c, rfl⟩ h.1
  | ok best =>
    rw [hr] at h
    refine iff_of_false (fun ⟨_, hc⟩ => nomatch hc) ?_
    cases best with
    | none => exact Automaton.not_exposed_of_not_acceptsIn h
    | some b => exact h.1

/-- Nothing is accepted when no member accepts anything. -/
theorem acceptOf_eq_none_iff :
    e.acceptOf set = .ok none ↔ ∀ acc, ¬e.automaton.Accepts set acc := by
  have h := met_acceptOf e set
  constructor
  · intro hr
    rw [hr] at h
    exact h
  · intro hnone
    match hr : e.acceptOf set with
    | .ok none => rfl
    | .error c =>
      rw [hr] at h
      exact absurd h.1 (Automaton.not_exposed_of_not_acceptsIn hnone)
    | .ok (some b) =>
      rw [hr] at h
      exact absurd h.2.1 (hnone b)

/-- A rule is accepted when no conflict is met and it has the lowest ordinal. -/
theorem acceptOf_eq_some_iff : e.acceptOf set = .ok (some x) ↔
    ¬e.automaton.Exposed set.toList ∧ e.automaton.AcceptsLowest set (some x) := by
  have h := met_acceptOf e set
  constructor
  · intro hr
    rw [hr] at h
    obtain ⟨hnot, hx, hlow⟩ := h
    exact ⟨hnot, hx, fun z hz => (hlow z hz).1⟩
  · intro ⟨hnot, hx, hlow⟩
    match hr : e.acceptOf set with
    | .error c => exact absurd (exists_error_iff.1 ⟨c, hr⟩) hnot
    | .ok none => exact absurd hx (acceptOf_eq_none_iff.1 hr x)
    | .ok (some b) =>
      rw [hr] at h
      obtain ⟨-, hb, hlowb⟩ := h
      -- Only one rule has the lowest ordinal.
      obtain ⟨hle, honly⟩ := hlowb x hx
      rw [honly (Nat.le_antisymm (hlow b hb) hle)]

/-- A set whose rules have distinct ordinals accepts the lowest of them. -/
theorem acceptOf_eq (hordinal : ∀ x y, e.automaton.Accepts set x → e.automaton.Accepts set y →
      x.ordinal = y.ordinal → x = y) :
    ∃ r, e.acceptOf set = .ok r ∧ e.automaton.AcceptsLowest set r := by
  match hr : e.acceptOf set with
  | .error c =>
    obtain ⟨x, y, hx, hy, hclash⟩ := (exists_error_iff.1 ⟨c, hr⟩).conflicted
    obtain ⟨hsame, hne⟩ := Accept.clashes_iff.1 hclash
    exact absurd (hordinal x y hx hy hsame) hne
  | .ok none => exact ⟨none, rfl, acceptOf_eq_none_iff.1 hr⟩
  | .ok (some b) => exact ⟨some b, rfl, (acceptOf_eq_some_iff.1 hr).2⟩

/-- Where rules that clash have the lowest ordinal, what is accepted is determined by the rules
alone. -/
theorem toOption_acceptOf_congr {e' : Engine} {set' : StateSet}
    (hlow : e.automaton.ClashesLow set)
    (hsame : ∀ acc, e'.automaton.Accepts set' acc ↔ e.automaton.Accepts set acc) :
    (e'.acceptOf set').toOption = (e.acceptOf set).toOption := by
  have heq : e'.automaton.Accepts set' = e.automaton.Accepts set :=
    funext fun acc => propext (hsame acc)
  have hexposed : e'.automaton.Exposed set'.toList ↔ e.automaton.Exposed set.toList := by
    rw [hlow.exposed_iff, (hlow.congr heq).exposed_iff]
    unfold Automaton.Conflicted
    rw [heq]
  match hr : e.acceptOf set with
  | .error c =>
    obtain ⟨c', hr'⟩ := exists_error_iff.2 (hexposed.2 (exists_error_iff.1 ⟨c, hr⟩))
    rw [hr']
    rfl
  | .ok none =>
    rw [acceptOf_eq_none_iff, ← heq, ← acceptOf_eq_none_iff] at hr
    rw [hr]
  | .ok (some b) =>
    have hb := acceptOf_eq_some_iff.1 hr
    unfold Automaton.AcceptsLowest at hb
    rw [← hexposed, ← heq] at hb
    rw [acceptOf_eq_some_iff.2 hb]

/-- What a set accepts.

There is an error exactly if a conflict is met, and it names two rules that clash. Else the rule of
the lowest ordinal is accepted, if there is one. Where rules that clash have the lowest ordinal, a
conflict is always met, and the outcome is the same for all automata and sets that accept the same
rules. -/
theorem acceptOf_exact (e : Engine) (set : StateSet) :
    ((∃ c, e.acceptOf set = .error c) ↔ e.automaton.Exposed set.toList) ∧
    (∀ c, e.acceptOf set = .error c → ∃ x y, e.automaton.Accepts set x ∧
      e.automaton.Accepts set y ∧ x.Clashes y ∧ c = ⟨x.rule, y.rule, set, x.ordinal⟩) ∧
    (e.acceptOf set = .ok none ↔ ∀ acc, ¬e.automaton.Accepts set acc) ∧
    (∀ acc, e.acceptOf set = .ok (some acc) ↔
      ¬e.automaton.Exposed set.toList ∧ e.automaton.AcceptsLowest set (some acc)) ∧
    (e.automaton.ClashesLow set →
      ((∃ c, e.acceptOf set = .error c) ↔ e.automaton.Conflicted set) ∧
      ∀ (e' : Engine) (set' : StateSet),
        (∀ acc, e'.automaton.Accepts set' acc ↔ e.automaton.Accepts set acc) →
        (e'.acceptOf set').toOption = (e.acceptOf set).toOption) := by
  refine ⟨exists_error_iff, fun c hc => ?_, acceptOf_eq_none_iff, fun acc => acceptOf_eq_some_iff,
    fun hlow => ⟨exists_error_iff.trans hlow.exposed_iff,
      fun e' set' hsame => toOption_acceptOf_congr hlow hsame⟩⟩
  have h := met_acceptOf e set
  rw [hc] at h
  exact h.2

/-- Three states that accept rules, of which the last two clash. -/
def clashing : Automaton where
  states := #[{ lexState := 0, accept := some ⟨0, 0, 1⟩ },
    { lexState := 0, accept := some ⟨1, 1, 2⟩ }, { lexState := 0, accept := some ⟨2, 1, 3⟩ }]

/-- The same states with other numbers: the rule of the lowest ordinal is the last one. -/
def renumbered : Automaton where
  states := #[{ lexState := 0, accept := some ⟨1, 1, 2⟩ },
    { lexState := 0, accept := some ⟨2, 1, 3⟩ }, { lexState := 0, accept := some ⟨0, 0, 1⟩ }]

/-- In the example the two rules that clash are a conflict when no other rule is accepted, whatever
the numbers of their states. -/
theorem acceptOf_exact_clashing :
    clashing.ClashesLow ⟨[1, 2], by decide⟩ ∧
      (∃ c, (ofAutomaton clashing).acceptOf ⟨[1, 2], by decide⟩ = .error c) ∧
      ((ofAutomaton renumbered).acceptOf ⟨[0, 1], by decide⟩).toOption =
        ((ofAutomaton clashing).acceptOf ⟨[1, 2], by decide⟩).toOption := by
  have hclash : (⟨1, 1, 2⟩ : Accept).Clashes ⟨2, 1, 3⟩ := by decide
  have hfirst : clashing.Accepts ⟨[1, 2], by decide⟩ ⟨1, 1, 2⟩ := ⟨1, by decide, rfl⟩
  have hsecond : clashing.Accepts ⟨[1, 2], by decide⟩ ⟨2, 1, 3⟩ := ⟨2, by decide, rfl⟩
  have hboth : ∀ z ∈ ([⟨1, 1, 2⟩, ⟨2, 1, 3⟩] : List Accept), 1 ≤ z.ordinal := by decide
  have hlow : clashing.ClashesLow ⟨[1, 2], by decide⟩ := fun _ =>
    ⟨_, _, hfirst, hsecond, hclash, fun z hz => hboth z (Automaton.accepts_iff_mem.1 hz)⟩
  obtain ⟨-, -, -, -, hexact⟩ := acceptOf_exact (ofAutomaton clashing) ⟨[1, 2], by decide⟩
  obtain ⟨herror, hsame⟩ := hexact hlow
  refine ⟨hlow, herror.2 ⟨_, _, hfirst, hsecond, hclash⟩, hsame _ _ fun acc => ?_⟩
  rw [Automaton.accepts_iff_mem, Automaton.accepts_iff_mem]
  rfl

/-- Behind a rule of a lower ordinal two rules that clash are passed over. With other numbers for
the same states they are a conflict. -/
theorem clash_passed_over :
    clashing.Conflicted ⟨[0, 1, 2], by decide⟩ ∧
      (ofAutomaton clashing).acceptOf ⟨[0, 1, 2], by decide⟩ = .ok (some ⟨0, 0, 1⟩) ∧
      (∀ acc, renumbered.Accepts ⟨[0, 1, 2], by decide⟩ acc ↔
        clashing.Accepts ⟨[0, 1, 2], by decide⟩ acc) ∧
      (ofAutomaton renumbered).acceptOf ⟨[0, 1, 2], by decide⟩ =
        .error ⟨1, 2, ⟨[0, 1, 2], by decide⟩, 1⟩ := by
  refine ⟨⟨⟨1, 1, 2⟩, ⟨2, 1, 3⟩, ⟨1, by decide, rfl⟩, ⟨2, by decide, rfl⟩, by decide⟩, rfl,
    fun acc => ?_, rfl⟩
  rw [Automaton.accepts_iff_mem, Automaton.accepts_iff_mem]
  exact List.Perm.mem_iff (by decide)

end Engine

end Lexwright

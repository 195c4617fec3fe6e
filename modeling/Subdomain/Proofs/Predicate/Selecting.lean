import Subdomain.Predicate.Select

/-!
# Points that are selected

A predicate is defined on a mesh if all its coordinates exist there and it has a
truth value at every point; just then points are selected, those at which it holds
(`select_spec`). As no operand of a connective is passed over, a conjunction or a
disjunction is defined if both operands are, wherever they hold.
-/

namespace Subdomain

namespace Predicate

/-- The coordinates of the expression exist, and it has a truth value at every point. -/
structure Expr.Defined (e : Expr) (dim : Nat) (coors : List Point) : Prop where
  axes : ∀ a ∈ e.axes, a.index < dim
  holds : ∀ p ∈ coors, ∃ b, e.holds p = .ok b

/-- The expression holds at point `v`. -/
def Expr.Selects (e : Expr) (coors : List Point) (v : Nat) : Prop :=
  ∃ p, coors[v]? = some p ∧ e.holds p = .ok true

/-! ## Selection -/

theorem mem_of_selectFrom {e : Expr} {coors : List Point} {n : Nat} {vs : List Nat}
    (h : e.selectFrom n coors = .ok vs) : (∀ p ∈ coors, ∃ b, e.holds p = .ok b) ∧
      ∀ v, v ∈ vs ↔ n ≤ v ∧ ∃ p, coors[v - n]? = some p ∧ e.holds p = .ok true := by
  induction coors generalizing n vs with
  | nil =>
    cases h
    exact ⟨nofun, fun v => by simp⟩
  | cons p ps ih =>
    rw [Expr.selectFrom] at h
    cases hp : e.holds p with
    | error f =>
      rw [hp] at h
      cases h
    | ok b =>
      cases hps : e.selectFrom (n + 1) ps with
      | error f =>
        rw [hp, hps] at h
        cases h
      | ok rest =>
        rw [hp, hps] at h
        obtain rfl : (if b then n :: rest else rest) = vs := Except.ok.inj h
        obtain ⟨hdefined, hmem⟩ := ih hps
        refine ⟨List.forall_mem_cons.2 ⟨⟨b, hp⟩, hdefined⟩, fun v => ?_⟩
        have hrest : v ∈ (if b then n :: rest else rest) ↔ (b = true ∧ v = n) ∨ v ∈ rest := by
          cases b <;> simp
        rw [hrest, hmem]
        rcases Nat.lt_trichotomy v n with hlt | rfl | hgt
        · exact iff_of_false (by omega) (by omega)
        · rw [Nat.sub_self, List.getElem?_cons_zero]
          simp only [hp, Nat.not_succ_le_self, false_and, or_false, and_true, Nat.le_refl, true_and,
            Option.some.injEq, exists_eq_left', Except.ok.injEq]
        · obtain ⟨k, rfl⟩ := Nat.exists_eq_add_of_lt hgt
          have hk : n + k + 1 - n = k + 1 := by omega
          have hk' : n + k + 1 - (n + 1) = k := by omega
          rw [hk, hk', List.getElem?_cons_succ]
          refine ⟨fun h => ⟨by omega, ?_⟩, fun h => .inr ⟨by omega, h.2⟩⟩
          rcases h with ⟨-, h⟩ | h
          · omega
          · exact h.2

theorem exists_selectFrom {e : Expr} {coors : List Point}
    (h : ∀ p ∈ coors, ∃ b, e.holds p = .ok b) (n : Nat) : ∃ vs, e.selectFrom n coors = .ok vs := by
  induction coors generalizing n with
  | nil => exact ⟨[], rfl⟩
  | cons p ps ih =>
    obtain ⟨⟨b, hb⟩, hps⟩ := List.forall_mem_cons.1 h
    obtain ⟨vs, hvs⟩ := ih hps (n + 1)
    rw [Expr.selectFrom, hb, hvs]
    exact ⟨_, rfl⟩

theorem maxAxis?_spec (e : Expr) : (e.maxAxis? = none ∧ e.axes = []) ∨
    ∃ a, e.maxAxis? = some a ∧ a ∈ e.axes ∧ ∀ b ∈ e.axes, b.index ≤ a.index := by
  simp only [Expr.maxAxis?, Axis.all, List.reverse_cons, List.reverse_nil, List.nil_append,
    List.cons_append, List.find?_cons, List.find?_nil]
  by_cases hz : .z ∈ e.axes
  · exact .inr ⟨.z, by simp [hz], hz, fun b _ => by cases b <;> decide⟩
  by_cases hy : .y ∈ e.axes
  · refine .inr ⟨.y, by simp [hz, hy], hy, fun b hb => ?_⟩
    cases b with
    | z => exact absurd hb hz
    | x | y => decide
  by_cases hx : .x ∈ e.axes
  · refine .inr ⟨.x, by simp [hz, hy, hx], hx, fun b hb => ?_⟩
    cases b with
    | z => exact absurd hb hz
    | y => exact absurd hb hy
    | x => decide
  · refine .inl ⟨by simp [hz, hy, hx], List.eq_nil_iff_forall_not_mem.2 fun b => ?_⟩
    cases b <;> assumption

theorem maxAxis?_eq_some_iff {e : Expr} {a : Axis} :
    e.maxAxis? = some a ↔ a ∈ e.axes ∧ ∀ b ∈ e.axes, b.index ≤ a.index := by
  rcases maxAxis?_spec e with ⟨hnone, hnil⟩ | ⟨a', hsome, hmem, hmax⟩
  · simp [hnone, hnil]
  · rw [hsome, Option.some.injEq]
    refine ⟨fun h => h ▸ ⟨hmem, hmax⟩, fun ⟨ha, hle⟩ => ?_⟩
    have hindex := Nat.le_antisymm (hle a' hmem) (hmax a ha)
    cases a <;> cases a' <;> first | rfl | cases hindex

theorem filter_maxAxis?_eq_none_iff {e : Expr} {dim : Nat} :
    e.maxAxis?.filter (dim ≤ ·.index) = none ↔ ∀ a ∈ e.axes, a.index < dim := by
  rcases maxAxis?_spec e with ⟨hnone, hnil⟩ | ⟨a, hsome, hmem, hmax⟩
  · simp [hnone, hnil]
  · rw [hsome, Option.filter_eq_none_iff]
    simp only [Option.some.injEq, forall_eq', decide_eq_true_eq, Nat.not_le]
    exact ⟨fun h b hb => Nat.lt_of_le_of_lt (hmax b hb) h, fun h => h a hmem⟩

/-- What is selected: the points at which the predicate holds, if it is defined. -/
theorem select_spec (p : Predicate) (dim : Nat) (coors : List Point) :
    (p.expr.Defined dim coors ∧ ∃ vs, p.select dim coors = .ok vs ∧
      ∀ v, v ∈ vs ↔ p.expr.Selects coors v) ∨
    (¬ p.expr.Defined dim coors ∧ ∃ f, p.select dim coors = .error f) := by
  unfold select
  split
  · rename_i a ha
    refine .inr ⟨fun hd => ?_, _, rfl⟩
    cases ha.symm.trans (filter_maxAxis?_eq_none_iff.2 hd.axes)
  · rename_i hnone
    have haxes := filter_maxAxis?_eq_none_iff.1 hnone
    cases hs : p.expr.selectFrom 0 coors with
    | ok vs =>
      obtain ⟨hdefined, hmem⟩ := mem_of_selectFrom hs
      refine .inl ⟨⟨haxes, hdefined⟩, vs, rfl, fun v => ?_⟩
      rw [hmem, Nat.sub_zero]
      exact and_iff_right (Nat.zero_le v)
    | error f =>
      refine .inr ⟨fun hd => ?_, _, rfl⟩
      obtain ⟨vs, hvs⟩ := exists_selectFrom hd.holds 0
      cases hs.symm.trans hvs

/-! ## Connectives -/

section

variable {l r e : Expr} {p : Point} {c : Bool} {f : Bool → Bool → Bool} {dim v : Nat}
  {coors : List Point}

/-- Both operands are asked, the second one whatever the first one yields. -/
theorem both_eq_ok_iff {m n : Except TypeFault Bool} :
    (do let a ← m; let b ← n; return f a b) = Except.ok c ↔
      ∃ a b, m = .ok a ∧ n = .ok b ∧ c = f a b := by
  cases m with
  | error e => simp [bind, Except.bind]
  | ok a => cases n <;> simp [bind, Except.bind, pure, Except.pure, eq_comm]

theorem holds_conj_eq_ok_iff : (Expr.conj l r).holds p = .ok c ↔
    ∃ a b, l.holds p = .ok a ∧ r.holds p = .ok b ∧ c = (a && b) := by
  rw [← both_eq_ok_iff]
  simp only [Expr.holds, Expr.eval, bind_assoc, pure_bind]
  rfl

theorem holds_disj_eq_ok_iff : (Expr.disj l r).holds p = .ok c ↔
    ∃ a b, l.holds p = .ok a ∧ r.holds p = .ok b ∧ c = (a || b) := by
  rw [← both_eq_ok_iff]
  simp only [Expr.holds, Expr.eval, bind_assoc, pure_bind]
  rfl

theorem holds_compl_eq_ok_iff : (Expr.compl e).holds p = .ok c ↔ e.holds p = .ok (!c) := by
  have hbind : (Expr.compl e).holds p = e.holds p >>= fun b => pure (!b) := by
    simp only [Expr.holds, Expr.eval, bind_assoc, pure_bind]
    rfl
  rw [hbind]
  cases e.holds p with
  | error f => simp [bind, Except.bind]
  | ok b => cases b <;> cases c <;> simp [bind, Except.bind, pure, Except.pure]

theorem defined_iff_of_operands (haxes : e.axes = l.axes ++ r.axes)
    (hholds : ∀ p c, e.holds p = .ok c ↔
      ∃ a b, l.holds p = .ok a ∧ r.holds p = .ok b ∧ c = f a b) :
    e.Defined dim coors ↔ l.Defined dim coors ∧ r.Defined dim coors := by
  constructor
  · rintro ⟨ha, hb⟩
    rw [haxes, List.forall_mem_append] at ha
    refine ⟨⟨ha.1, fun p hp => ?_⟩, ha.2, fun p hp => ?_⟩
    all_goals
      obtain ⟨c, hc⟩ := hb p hp
      obtain ⟨a, b, hl, hr, -⟩ := (hholds p c).1 hc
    · exact ⟨a, hl⟩
    · exact ⟨b, hr⟩
  · rintro ⟨hl, hr⟩
    refine ⟨by rw [haxes, List.forall_mem_append]; exact ⟨hl.axes, hr.axes⟩, fun p hp => ?_⟩
    obtain ⟨a, ha⟩ := hl.holds p hp
    obtain ⟨b, hb⟩ := hr.holds p hp
    exact ⟨f a b, (hholds p _).2 ⟨a, b, ha, hb, rfl⟩⟩

theorem defined_conj_iff :
    (Expr.conj l r).Defined dim coors ↔ l.Defined dim coors ∧ r.Defined dim coors :=
  defined_iff_of_operands (by rw [Expr.axes]) fun _ _ => holds_conj_eq_ok_iff

theorem defined_disj_iff :
    (Expr.disj l r).Defined dim coors ↔ l.Defined dim coors ∧ r.Defined dim coors :=
  defined_iff_of_operands (by rw [Expr.axes]) fun _ _ => holds_disj_eq_ok_iff

theorem defined_compl_iff : (Expr.compl e).Defined dim coors ↔ e.Defined dim coors := by
  have haxes : (Expr.compl e).axes = e.axes := by rw [Expr.axes]
  refine ⟨fun h => ⟨haxes ▸ h.axes, fun p hp => ?_⟩, fun h => ⟨haxes ▸ h.axes, fun p hp => ?_⟩⟩
  · obtain ⟨c, hc⟩ := h.holds p hp
    exact ⟨!c, holds_compl_eq_ok_iff.1 hc⟩
  · obtain ⟨c, hc⟩ := h.holds p hp
    exact ⟨!c, holds_compl_eq_ok_iff.2 (by rwa [Bool.not_not])⟩

/-! ## Connectives and sets -/

theorem selects_conj_iff :
    (Expr.conj l r).Selects coors v ↔ l.Selects coors v ∧ r.Selects coors v := by
  constructor
  · rintro ⟨p, hp, h⟩
    obtain ⟨a, b, ha, hb, hab⟩ := holds_conj_eq_ok_iff.1 h
    obtain ⟨rfl, rfl⟩ := Bool.and_eq_true_iff.1 hab.symm
    exact ⟨⟨p, hp, ha⟩, p, hp, hb⟩
  · rintro ⟨⟨p, hp, ha⟩, q, hq, hb⟩
    cases hp.symm.trans hq
    exact ⟨p, hp, holds_conj_eq_ok_iff.2 ⟨true, true, ha, hb, rfl⟩⟩

theorem selects_disj_iff (hl : l.Defined dim coors) (hr : r.Defined dim coors) :
    (Expr.disj l r).Selects coors v ↔ l.Selects coors v ∨ r.Selects coors v := by
  constructor
  · rintro ⟨p, hp, h⟩
    obtain ⟨a, b, ha, hb, hab⟩ := holds_disj_eq_ok_iff.1 h
    rcases Bool.or_eq_true_iff.1 hab.symm with rfl | rfl
    · exact .inl ⟨p, hp, ha⟩
    · exact .inr ⟨p, hp, hb⟩
  · rintro (⟨p, hp, ha⟩ | ⟨p, hp, hb⟩)
    · obtain ⟨b, hb⟩ := hr.holds p (List.mem_of_getElem? hp)
      exact ⟨p, hp, holds_disj_eq_ok_iff.2 ⟨true, b, ha, hb, rfl⟩⟩
    · obtain ⟨a, ha⟩ := hl.holds p (List.mem_of_getElem? hp)
      exact ⟨p, hp, holds_disj_eq_ok_iff.2 ⟨a, true, ha, hb, (Bool.or_true a).symm⟩⟩

theorem selects_compl_iff (he : e.Defined dim coors) :
    (Expr.compl e).Selects coors v ↔ v < coors.length ∧ ¬ e.Selects coors v := by
  constructor
  · rintro ⟨p, hp, h⟩
    refine ⟨(List.getElem?_eq_some_iff.1 hp).1, ?_⟩
    rintro ⟨q, hq, h'⟩
    cases hp.symm.trans hq
    cases (holds_compl_eq_ok_iff.1 h).symm.trans h'
  · rintro ⟨hlt, hn⟩
    have hp := List.getElem?_eq_getElem hlt
    obtain ⟨b, hb⟩ := he.holds _ (List.getElem_mem hlt)
    cases b with
    | true => exact absurd ⟨_, hp, hb⟩ hn
    | false => exact ⟨_, hp, holds_compl_eq_ok_iff.2 hb⟩

end

end Predicate

end Subdomain

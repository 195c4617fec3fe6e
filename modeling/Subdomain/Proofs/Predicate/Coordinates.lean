import Mathlib.Data.List.Forall2
import Subdomain.Proofs.Predicate.Operands
import Subdomain.Proofs.Predicate.Selecting

/-!
# The coordinates that a predicate reads

Evaluation reads the coordinates that occur in the expression and no others
(`eval_congr`). A predicate that mentions one beyond the dimension is refused, whatever
points there are and whatever else is wrong with it; every other one selects by the
coordinates within the dimension alone (`select_readsWithin`).
-/

namespace Subdomain

namespace Predicate

/-! ## Evaluation -/

section

variable {p q : Point}

mutual

theorem eval_congr (e : Expr) (h : ∀ a ∈ e.axes, p.get a = q.get a) : e.eval p = e.eval q := by
  match e with
  | .number _ | .boolean _ => rfl
  | .coordinate a => rw [Expr.eval, Expr.eval, h a (by simp [Expr.axes])]
  | .neg e | .compl e | .call _ e =>
    rw [Expr.axes] at h
    rw [Expr.eval, Expr.eval, eval_congr e h]
  | .arith _ l r | .conj l r | .disj l r =>
    rw [Expr.axes, List.forall_mem_append] at h
    rw [Expr.eval, Expr.eval, eval_congr l h.1, eval_congr r h.2]
  | .compare first links =>
    rw [Expr.axes, List.forall_mem_append] at h
    simp only [Expr.eval, eval_congr first h.1, fun x => hold_congr x links h.2]

theorem hold_congr (x : Float) (links : Links) (h : ∀ a ∈ links.axes, p.get a = q.get a) :
    links.hold p x = links.hold q x := by
  match links with
  | .nil => rfl
  | .cons _ e rest =>
    rw [Links.axes, List.forall_mem_append] at h
    simp only [Links.hold, eval_congr e h.1, fun x => hold_congr x rest h.2]

end

end

/-- The points have the same coordinates within the dimension. -/
def AgreeWithin (dim : Nat) (p q : Point) : Prop := ∀ a : Axis, a.index < dim → p.get a = q.get a

section

variable {e : Expr} {dim : Nat} {coors coors' : List Point}

theorem selectFrom_congr (haxes : ∀ a ∈ e.axes, a.index < dim)
    (h : List.Forall₂ (AgreeWithin dim) coors coors') (n : Nat) :
    e.selectFrom n coors = e.selectFrom n coors' := by
  induction h generalizing n with
  | nil => rfl
  | cons hpq _ ih =>
    rw [Expr.selectFrom, Expr.selectFrom, ih, Expr.holds, Expr.holds,
      eval_congr e fun a ha => hpq a (haxes a ha)]

/-! ## Selection -/

theorem select_eq_undefined_iff {p : Predicate} {a : Axis} {n : Nat} :
    p.select dim coors = .error (.undefinedCoordinate a n) ↔
      n = dim ∧ dim ≤ a.index ∧ p.expr.maxAxis? = some a := by
  unfold select
  cases hmax : p.expr.maxAxis?.filter (dim ≤ ·.index) with
  | some b =>
    obtain ⟨hb, hdim⟩ := Option.filter_eq_some_iff.1 hmax
    rw [hb, Except.error.injEq, SelectFault.undefinedCoordinate.injEq, Option.some.injEq]
    constructor
    · rintro ⟨rfl, rfl⟩
      exact ⟨rfl, of_decide_eq_true hdim, rfl⟩
    · rintro ⟨rfl, -, rfl⟩
      exact ⟨rfl, rfl⟩
  | none =>
    refine iff_of_false ?_ fun ⟨_, hdim, ha⟩ => ?_
    · cases p.expr.selectFrom 0 coors <;> exact nofun
    · have hlt := filter_maxAxis?_eq_none_iff.1 hmax a (maxAxis?_eq_some_iff.1 ha).1
      exact Nat.lt_irrefl _ (Nat.lt_of_lt_of_le hlt hdim)

end

/-- Selection reads the coordinates within the dimension only: where the predicate mentions another
one it is refused for that, with or without points. -/
structure ReadsWithin (p : Predicate) (dim : Nat) : Prop where
  agree : ∀ coors coors', List.Forall₂ (AgreeWithin dim) coors coors' →
    p.select dim coors = p.select dim coors'
  refused : ∀ coors, (∃ a n, p.select dim coors = .error (.undefinedCoordinate a n)) ↔
    ∃ a, p.expr.Mentions a ∧ dim ≤ a.index
  named : ∀ coors a n, p.select dim coors = .error (.undefinedCoordinate a n) ↔
    n = dim ∧ dim ≤ a.index ∧ p.expr.Mentions a ∧ ∀ b, p.expr.Mentions b → b.index ≤ a.index

theorem select_readsWithin (p : Predicate) (dim : Nat) : p.ReadsWithin dim where
  agree coors coors' h := by
    unfold select
    cases hmax : p.expr.maxAxis?.filter (dim ≤ ·.index) with
    | some a => rfl
    | none => rw [selectFrom_congr (filter_maxAxis?_eq_none_iff.1 hmax) h]
  refused coors := by
    simp only [select_eq_undefined_iff, ← Expr.mem_axes_iff]
    constructor
    · rintro ⟨a, n, -, hdim, ha⟩
      exact ⟨a, (maxAxis?_eq_some_iff.1 ha).1, hdim⟩
    · rintro ⟨a, ha, hdim⟩
      rcases maxAxis?_spec p.expr with ⟨-, hnil⟩ | ⟨b, hsome, -, hmax⟩
      · cases hnil ▸ ha
      · exact ⟨b, dim, rfl, Nat.le_trans hdim (hmax a ha), hsome⟩
  named coors a n := by
    simp only [select_eq_undefined_iff, maxAxis?_eq_some_iff, Expr.mem_axes_iff]

end Predicate

end Subdomain

import Mathlib.Logic.Relation
import Subdomain.Predicate.Expr

/-!
# Operands

The operands of an expression are the expressions from which it is made, the links of a
chain of comparisons among them. What holds of an expression as soon as it holds of its
operands holds of all (`Expr.operandInduction`), and the axes that an expression reads
are those that occur in it at some depth (`Expr.mem_axes_iff`).
-/

namespace Subdomain

namespace Predicate

def Links.operands : Links → List Expr
  | .nil => []
  | .cons _ e rest => e :: rest.operands

/-- The expressions from which another one is made. -/
def Expr.operands : Expr → List Expr
  | .number _ | .boolean _ | .coordinate _ => []
  | .neg e | .compl e | .call _ e => [e]
  | .arith _ l r | .conj l r | .disj l r => [l, r]
  | .compare first links => first :: links.operands

mutual

theorem Expr.operandInduction {P : Expr → Prop} (h : ∀ e, (∀ e' ∈ Expr.operands e, P e') → P e)
    (e : Expr) : P e := by
  match e with
  | .number _ | .boolean _ | .coordinate _ => exact h _ nofun
  | .neg e | .compl e | .call _ e =>
    exact h _ (List.forall_mem_singleton.2 (e.operandInduction h))
  | .arith _ l r | .conj l r | .disj l r =>
    exact h _ (List.forall_mem_cons.2
      ⟨l.operandInduction h, List.forall_mem_singleton.2 (r.operandInduction h)⟩)
  | .compare first links =>
    exact h _ (List.forall_mem_cons.2 ⟨first.operandInduction h, links.operandInduction h⟩)

theorem Links.operandInduction {P : Expr → Prop} (h : ∀ e, (∀ e' ∈ Expr.operands e, P e') → P e)
    (links : Links) : ∀ e ∈ links.operands, P e := by
  match links with
  | .nil => exact nofun
  | .cons _ e rest => exact List.forall_mem_cons.2 ⟨e.operandInduction h, rest.operandInduction h⟩

end

/-- The axis occurs in the expression, at some depth. -/
def Expr.Mentions (e : Expr) (a : Axis) : Prop :=
  Relation.ReflTransGen (fun e' e => e' ∈ Expr.operands e) (.coordinate a) e

section

variable {a : Axis}

theorem Links.mem_axes_iff (links : Links) : a ∈ links.axes ↔ ∃ e ∈ links.operands, a ∈ e.axes := by
  match links with
  | .nil => simp [Links.axes, Links.operands]
  | .cons _ e rest =>
    rw [Links.axes, Links.operands, List.mem_append, rest.mem_axes_iff]
    simp

theorem Expr.mem_axes_iff_operands (e : Expr) :
    a ∈ e.axes ↔ e = .coordinate a ∨ ∃ e' ∈ e.operands, a ∈ e'.axes := by
  match e with
  | .number _ | .boolean _ => simp [Expr.axes, Expr.operands]
  | .coordinate _ => simp [Expr.axes, Expr.operands, eq_comm]
  | .neg e | .compl e | .call _ e => simp [Expr.axes, Expr.operands]
  | .arith _ l r | .conj l r | .disj l r => simp [Expr.axes, Expr.operands]
  | .compare first links => simp [Expr.axes, Expr.operands, Links.mem_axes_iff]

theorem Expr.mem_axes_iff {e : Expr} : a ∈ e.axes ↔ e.Mentions a := by
  constructor
  · induction e using Expr.operandInduction with
    | h e ih =>
      intro ha
      rcases e.mem_axes_iff_operands.1 ha with rfl | ⟨e', he', ha'⟩
      · exact .refl
      · exact (ih e' he' ha').tail he'
  · intro h
    induction h with
    | refl => exact (Expr.mem_axes_iff_operands _).2 (.inl rfl)
    | tail _ he ih => exact (Expr.mem_axes_iff_operands _).2 (.inr ⟨_, he, ih⟩)

end

end Predicate

end Subdomain

import Subdomain.Predicate.Parser

/-!
# Selecting points

The points at which a predicate holds. A predicate over a coordinate that the
mesh does not have is refused before any point is looked at.
-/

namespace Subdomain

namespace Predicate

inductive SelectFault where
  | undefinedCoordinate (axis : Axis) (dim : Nat)
  | mistyped (fault : TypeFault)
  deriving DecidableEq, Repr

def SelectFault.message : SelectFault → String
  | undefinedCoordinate a dim => s!"coordinate '{a.name}' is not defined in {dim}D"
  | mistyped f => f.message

/-- Whether an expression holds at a point. -/
def Expr.holds (e : Expr) (p : Point) : Except TypeFault Bool := do (← e.eval p).asBoolean

/-- The points that satisfy an expression, counted from `first`. -/
def Expr.selectFrom (e : Expr) (first : Nat) : List Point → Except TypeFault (List Nat)
  | [] => .ok []
  | p :: ps => do
    let b ← e.holds p
    let rest ← e.selectFrom (first + 1) ps
    return if b then first :: rest else rest

/-- The indices of the points that satisfy a predicate in a mesh of the given dimension. -/
def select (p : Predicate) (dim : Nat) (coors : List Point) : Except SelectFault (List Nat) :=
  match p.expr.maxAxis?.filter (dim ≤ ·.index) with
  | some a => .error (.undefinedCoordinate a dim)
  | none => (p.expr.selectFrom 0 coors).mapError .mistyped

end Predicate

end Subdomain

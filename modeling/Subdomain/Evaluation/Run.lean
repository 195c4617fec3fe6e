import Subdomain.Selection.Program
import Subdomain.Region.Algebra
import Subdomain.Evaluation.Leaf

/-!
# Running programs

A stack machine evaluates the program of a selection. Evaluating the tree of the
selection directly gives the same regions and the same first error.
-/

namespace Subdomain

namespace Context

variable (x : Context)

/-- Runs a program on a stack of regions, the topmost region first. -/
def runFrom : List Region → Selection.Program → Except RegionError Region
  | [r], [] => .ok r
  | stack, [] => .error (.malformedExpression stack.length)
  | stack, .push l :: rest => do runFrom ((← x.evalLeaf l) :: stack) rest
  | second :: first :: stack, .apply o :: rest => do
    runFrom ((← Region.combine x.topology o first second) :: stack) rest
  | stack, .apply _ :: _ => .error (.malformedExpression stack.length)

/-- Runs a program. Exactly one region must be left. -/
def run (p : Selection.Program) : Except RegionError Region := x.runFrom [] p

/-- Evaluates a tree: the left operand, the right operand, their combination. -/
def evalTree : Selection.Tree → Except RegionError Region
  | .leaf l => x.evalLeaf l
  | .combine a o b => do
    let r ← evalTree a
    let t ← evalTree b
    Region.combine x.topology o r t

end Context

end Subdomain

import Subdomain.Operator
import Subdomain.Selection.Leaf

/-!
# Trees and programs

A selection is a tree of leaves and set operators. Its program lists the leaves
in the order of the text and every operator behind its second operand, ready for
a stack machine (`Evaluation/Run.lean`).
-/

namespace Subdomain

namespace Selection

inductive Tree where
  | leaf (l : Leaf)
  | combine (left : Tree) (op : SetOperator) (right : Tree)

inductive Instr where
  /-- Pushes the region of a leaf. -/
  | push (l : Leaf)
  /-- Replaces the two topmost regions by their combination. -/
  | apply (op : SetOperator)

abbrev Program := List Instr

def Tree.program : Tree → Program
  | leaf l => [.push l]
  | combine a op b => a.program ++ b.program ++ [.apply op]

/-- The infix text of a tree, with parentheses around right operands that are combinations. -/
def Tree.chars : Tree → List Char
  | leaf l => l.chars
  | combine a op (leaf l) => a.chars ++ ' ' :: op.chars ++ ' ' :: l.chars
  | combine a op b => a.chars ++ ' ' :: op.chars ++ [' ', '('] ++ b.chars ++ [')']

def Instr.reference? : Instr → Option String
  | push l => l.reference?
  | apply _ => none

/-- The names without their later repeats. -/
def firstUses : List String → List String
  | [] => []
  | n :: ns => n :: (firstUses ns).filter (· ≠ n)

/-- The regions that a program reads, in the order of their first use. -/
def Program.references (p : Program) : List String := firstUses (p.filterMap (·.reference?))

theorem mem_firstUses {n : String} {ns : List String} : n ∈ firstUses ns ↔ n ∈ ns := by
  induction ns with
  | nil => simp [firstUses]
  | cons m ms ih => by_cases h : n = m <;> simp [firstUses, h, ih]

theorem nodup_firstUses (ns : List String) : (firstUses ns).Nodup := by
  induction ns with
  | nil => simp [firstUses]
  | cons m ms ih => exact List.nodup_cons.2 ⟨by simp, ih.filter _⟩

end Selection

end Subdomain

import Subdomain.Mesh.Basic

/-!
# Structured meshes

The unit square in quadrilaterals and the unit cube in hexahedra. Vertices are
numbered along `x`, then `y`, then `z`, and cells in the same way. The one group
has material id 1. Every side has at least one cell.
-/

namespace Subdomain

namespace Mesh

/-- The `i`-th of `n` equal steps from 0 to 1. -/
def gridStep (i n : Nat) : Float := Float.ofNat i / Float.ofNat n

/-- A mesh with one group, of material id 1, and untagged vertices. -/
def ofGrid (name : String) (dim : Nat) (element : Element) (coors : List Point)
    (cells : List (List Nat)) : Mesh where
  name := name
  dim := dim
  coors := coors
  tags := List.replicate coors.length 0
  groups := [⟨1, element, cells.flatten⟩]
  vertexSets := .empty
  cellSets := .empty

/-- The corners of the cell at column `i` and row `j` of a grid with `n + 1` vertices in a row. -/
def squareCell (n i j : Nat) : List Nat :=
  let corner := fun i j => j * (n + 1) + i
  [corner i j, corner i j + 1, corner i (j + 1) + 1, corner i (j + 1)]

def unitSquare (nx ny : Nat) : Mesh :=
  let nx := max nx 1
  let ny := max ny 1
  ofGrid "unit_square" 2 .quadrilateral
    ((List.range (ny + 1)).flatMap fun j =>
      (List.range (nx + 1)).map fun i => ⟨gridStep i nx, gridStep j ny, 0⟩)
    ((List.range ny).flatMap fun j => (List.range nx).map fun i => squareCell nx i j)

/-- The corners of a cell of the cube: first those of its lower side, then those above them. -/
def cubeCell (n i j k : Nat) : List Nat :=
  let corner := fun i j k => k * ((n + 1) * (n + 1)) + j * (n + 1) + i
  [corner i j k, corner (i + 1) j k, corner (i + 1) (j + 1) k, corner i (j + 1) k,
    corner i j (k + 1), corner (i + 1) j (k + 1), corner (i + 1) (j + 1) (k + 1),
    corner i (j + 1) (k + 1)]

def unitCube (n : Nat) : Mesh :=
  let n := max n 1
  ofGrid "unit_cube" 3 .hexahedron
    ((List.range (n + 1)).flatMap fun k => (List.range (n + 1)).flatMap fun j =>
      (List.range (n + 1)).map fun i => ⟨gridStep i n, gridStep j n, gridStep k n⟩)
    ((List.range n).flatMap fun k => (List.range n).flatMap fun j =>
      (List.range n).map fun i => cubeCell n i j k)

end Mesh

end Subdomain

import Subdomain.Lists
import Subdomain.SortedSet
import Subdomain.NameTable
import Subdomain.Geometry.Box
import Subdomain.Mesh.Element
import Subdomain.Mesh.Error

/-!
# Meshes

A mesh has vertices, numbered over the whole mesh, and groups of cells. All cells
of a group share a reference element and a material id; their vertices stand in
one flat list, the connectivity, cell after cell. Vertices carry integer tags,
and vertices and cells can be collected in named sets.

`Mesh.ofPoints` and the `add` and `set` functions refuse what would break a mesh:
a group must split into whole cells, use only vertices of the mesh and bring a
material id of its own, and there is one tag for each vertex. A call that changes a
mesh gives its answer and the mesh that it leaves, which is the old one if it is refused.
-/

namespace Subdomain

/-- The first `count` pieces of `n` items each. -/
def pieces {α : Type} (n : Nat) : Nat → List α → List (List α)
  | 0, _ => []
  | count + 1, l => l.take n :: pieces n count (l.drop n)

theorem length_pieces {α : Type} {n count : Nat} {l : List α} :
    (pieces n count l).length = count := by
  induction count generalizing l with
  | zero => rfl
  | succ count ih => simp [pieces, ih]

structure ElementGroup where
  material : Int
  element : Element
  conn : List Nat
  deriving DecidableEq, Repr

namespace ElementGroup

def cellCount (g : ElementGroup) : Nat := g.conn.length / g.element.vertexCount

/-- The vertices of every cell. A rest of the connectivity that is no whole cell is left out. -/
def cells (g : ElementGroup) : List (List Nat) := pieces g.element.vertexCount g.cellCount g.conn

/-- The vertices of cell `i`, looked up by its place in the connectivity, which is computed in
64-bit words. -/
def cell? (g : ElementGroup) (i : UInt64) : Option (List Nat) :=
  let n := g.element.vertexCount.toUInt64
  let start := (i * n).toNat
  let stop := ((i + 1) * n).toNat
  if start ≤ stop ∧ stop ≤ g.conn.length then some ((g.conn.drop start).take (stop - start))
  else none

/-- The vertices that the group uses. -/
def vertices (g : ElementGroup) : IdSet := .ofList g.conn

end ElementGroup

structure Mesh where
  name : String
  dim : Nat
  coors : List Point
  tags : List Int
  groups : List ElementGroup
  vertexSets : NameTable (List Nat)
  /-- Cells in the numbering over all groups (`Mesh/Numbering.lean`). -/
  cellSets : NameTable (List Nat)

namespace Mesh

def vertexCount (m : Mesh) : Nat := m.coors.length

def groupCount (m : Mesh) : Nat := m.groups.length

def cellCount (m : Mesh) : Nat := total (m.groups.map (·.cellCount))

/-- Whether there are no vertices or no cells. -/
def isEmpty (m : Mesh) : Bool := m.vertexCount == 0 || m.cellCount == 0

/-- A mesh without groups, all of whose vertices are tagged zero. -/
def ofPoints (name : String) (dim : Nat) (coors : List Point) : Except MeshError Mesh :=
  if 1 ≤ dim ∧ dim ≤ 3 then
    .ok ⟨name, dim, coors, List.replicate coors.length 0, [], .empty, .empty⟩
  else .error (.invalidDimension dim)

/-- What keeps a group from joining the mesh. -/
def groupError? (m : Mesh) (g : ElementGroup) : Option MeshError :=
  if g.conn.length % g.element.vertexCount ≠ 0 then
    some (.raggedConnectivity m.groupCount g.conn.length g.element.vertexCount)
  else match g.conn.find? (m.vertexCount ≤ ·) with
    | some v => some (.invalidVertexIndex m.groupCount v m.vertexCount)
    | none =>
      if m.groups.any (·.material = g.material) then some (.duplicateMaterial g.material)
      else none

/-- Puts a group behind the others. -/
def pushGroup (m : Mesh) (g : ElementGroup) : Mesh := { m with groups := m.groups ++ [g] }

/-- Adds a group and gives its index. -/
def addGroup (m : Mesh) (g : ElementGroup) : Except MeshError Nat × Mesh :=
  match m.groupError? g with
  | some e => (.error e, m)
  | none => (.ok m.groupCount, m.pushGroup g)

def setTags (m : Mesh) (tags : List Int) : Except MeshError Unit × Mesh :=
  if tags.length = m.vertexCount then (.ok (), { m with tags })
  else (.error (.tagCountMismatch tags.length m.vertexCount), m)

def addVertexSet (m : Mesh) (name : String) (vertices : List Nat) : Mesh :=
  { m with vertexSets := m.vertexSets.insert name vertices }

def addCellSet (m : Mesh) (name : String) (cells : List Nat) : Mesh :=
  { m with cellSets := m.cellSets.insert name cells }

/-- The group with a given material id. -/
def groupOfMaterial? (m : Mesh) (material : Int) : Option Nat :=
  m.groups.findIdx? (·.material = material)

def bounds (m : Mesh) : Box := .ofPoints m.coors

def bounds? (m : Mesh) : Option Box := if m.bounds.isEmpty then none else some m.bounds

/-- The longest side of the bounding box, zero without vertices. -/
def diameter (m : Mesh) : Float := m.bounds?.elim 0 (·.maxExtent)

end Mesh

end Subdomain

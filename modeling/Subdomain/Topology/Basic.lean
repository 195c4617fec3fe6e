import Subdomain.Kind
import Subdomain.Topology.Table
import Subdomain.Mesh.Numbering

/-!
# Topology

The topology of a mesh holds, for every group, its cells and its tables of edges,
faces and facets, and the surface: the facets of top-dimensional cells that occur
once in the whole mesh.
-/

namespace Subdomain

structure GroupTopology where
  index : Nat
  element : Element
  cellOffset : Nat
  conn : List Nat
  vertices : IdSet
  edges : EntityTable
  faces : EntityTable
  facets : EntityTable

namespace GroupTopology

def ofGroup (index : Nat) (g : ElementGroup) (cellOffset : Nat) : GroupTopology where
  index := index
  element := g.element
  cellOffset := cellOffset
  conn := g.conn
  vertices := g.vertices
  edges := .ofCells g.element.edges g.cells
  faces := .ofCells g.element.faces g.cells
  facets := .ofCells g.element.facets g.cells

def cellCount (g : GroupTopology) : Nat := g.conn.length / g.element.vertexCount

/-- The vertices of every cell. -/
def cells (g : GroupTopology) : List (List Nat) := pieces g.element.vertexCount g.cellCount g.conn

/-- The vertices of cell `i`. -/
def cell? (g : GroupTopology) (i : Nat) : Option (List Nat) :=
  let n := g.element.vertexCount
  if i * n + n ≤ g.conn.length then some ((g.conn.drop (i * n)).take n) else none

def hasVertex (g : GroupTopology) (v : Nat) : Bool := decide (v ∈ g.vertices)

/-- The table of a kind that is numbered by one. -/
def table? (g : GroupTopology) : Kind → Option EntityTable
  | .edge => some g.edges
  | .face => some g.faces
  | .facet => some g.facets
  | .vertex | .cell => none

/-- How many entities of a kind the group has; vertices are not numbered by group. -/
def count (g : GroupTopology) (k : Kind) : Nat := (g.table? k).elim g.cellCount (·.size)

/-- The vertices of an entity of a kind. -/
def entity? (g : GroupTopology) (k : Kind) (i : Nat) : Option (List Nat) :=
  (g.table? k).elim (g.cell? i) (·.vertices? i)

end GroupTopology

structure Topology where
  dim : Nat
  vertexCount : Nat
  groups : List GroupTopology
  /-- The highest dimension of an element, zero without groups. -/
  topDim : Nat
  /-- The surface facets of every group, ascending. -/
  surface : List (List Nat)

namespace Topology

/-- How often a facet occurs in a cell of dimension `dim`. -/
def facetUses (groups : List GroupTopology) (dim : Nat) (key : List Nat) : Nat :=
  total ((groups.filter (·.element.dim = dim)).map (·.facets.uses key))

/-- The facets of one group that occur once in the cells of dimension `dim`. -/
def onceUsed (groups : List GroupTopology) (dim : Nat) (g : GroupTopology) : List Nat :=
  if g.element.dim = dim then
    (List.range g.facets.size).filter fun id =>
      ((g.facets.vertices? id).elim 0 (facetUses groups dim)) = 1
  else []

def ofMesh (m : Mesh) : Topology :=
  let groups := (m.groups.zip m.cellOffsets).mapIdx fun ig (g, offset) => .ofGroup ig g offset
  let topDim := (groups.map (·.element.dim)).foldl max 0
  { dim := m.dim, vertexCount := m.vertexCount, groups, topDim,
    surface := groups.map (onceUsed groups topDim) }

def cellCount (t : Topology) : Nat := total (t.groups.map (·.cellCount))

def groupCount (t : Topology) : Nat := t.groups.length

def group? (t : Topology) (ig : Nat) : Option GroupTopology := t.groups[ig]?

/-- Whether some group has a face. -/
def hasFaces (t : Topology) : Bool := t.groups.any (!·.faces.isEmpty)

end Topology

end Subdomain

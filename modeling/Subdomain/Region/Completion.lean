import Subdomain.Region.Basic
import Subdomain.Topology.Basic

/-!
# Completion

Completing a region derives every set from the authoritative one:

* the vertices of entities are those of any of them;
* the edges, faces, facets and cells of vertices are those with all their vertices in the set;
* the edges, faces and facets of cells are those that a cell of the set has;
* the cells of edges, faces or facets are those that own one of the set, and the
  entities of the other two kinds are those with all their vertices among its vertices.

Completion fails if the authoritative set holds something that the topology does
not have, and then nothing is derived.
-/

namespace Subdomain

/-- The greatest index of an entity; sums of indices stop here. -/
def maxIndex : Nat := 0xffffffff

/-- The greatest group index that an error can tell. -/
def maxGroupIndex : Nat := 0x7fffffffffffffff

namespace Topology

variable (t : Topology)

/-- The vertices of an entity of a kind. -/
def entityVertices (k : Kind) (e : Entity) : List Nat :=
  ((t.group? e.group).bind (·.entity? k e.index)).getD []

/-- The vertices of the entities of a set. -/
def incidentVertices (k : Kind) (s : EntitySet) : IdSet :=
  .ofList (s.toList.flatMap (t.entityVertices k))

/-- The entities of a kind, group by group, that `p` picks from the vertices of each. -/
def entitiesWhere (k : Kind) (p : List Nat → Bool) : EntitySet :=
  .ofList <| t.groups.flatMap fun g =>
    let items := (g.table? k).elim g.cells (·.entities)
    (items.zipIdx.filter fun (vs, _) => p vs).map fun (_, i) => ⟨g.index, i⟩

/-- The entities of a kind all of whose vertices are in a set. -/
def spanned (k : Kind) (vertices : IdSet) : EntitySet :=
  t.entitiesWhere k fun vs => vs.all fun v => decide (v ∈ vertices)

/-- The entities of a kind numbered by tables that the cells of a set have. -/
def entitiesOfCells (k : Kind) (cells : EntitySet) : EntitySet :=
  .ofList <| cells.toList.flatMap fun c =>
    (((t.group? c.group).bind (·.table? k)).elim [] (·.ofCell c.index)).map (⟨c.group, ·⟩)

/-- The cells that own an entity of a set. -/
def ownersOf (k : Kind) (s : EntitySet) : EntitySet :=
  .ofList <| s.toList.flatMap fun e =>
    (((t.group? e.group).bind (·.table? k)).elim [] (·.ownersOf e.index)).map (⟨e.group, ·⟩)

/-- The extent of a region from its authoritative set. -/
def derive (kind : Kind) (x : Extent) : Extent :=
  match kind with
  | .vertex =>
    { vertices := x.vertices
      edges := t.spanned .edge x.vertices
      faces := t.spanned .face x.vertices
      facets := t.spanned .facet x.vertices
      cells := t.spanned .cell x.vertices }
  | .cell =>
    { vertices := t.incidentVertices .cell x.cells
      edges := t.entitiesOfCells .edge x.cells
      faces := t.entitiesOfCells .face x.cells
      facets := t.entitiesOfCells .facet x.cells
      cells := x.cells }
  | k =>
    let s := x.entities k
    let vertices := t.incidentVertices k s
    let of := fun k' => if k' = k then s else t.spanned k' vertices
    { vertices, edges := of .edge, faces := of .face, facets := of .facet
      cells := t.ownersOf k s }

/-- The groups that use a vertex of a set. -/
def groupsUsing (vertices : IdSet) : IdSet :=
  .ofList ((t.groups.filter fun g => vertices.toList.any g.hasVertex).map (·.index))

/-- What is wrong with an entity of a kind that is numbered by group. -/
def entityError? (k : Kind) (e : Entity) : Option RegionError :=
  match t.group? e.group with
  | none => some (.invalidGroupIndex (min e.group maxGroupIndex : Nat) t.groupCount)
  | some g =>
    let count := g.count k
    if e.index < count then none
    else if k = .cell then some (.invalidCellIndex e.index count)
    else some (.invalidEntityIndex k e.group e.index count)

/-- What is wrong with the authoritative set of an extent: its first member that the topology does
not have. -/
def error? (kind : Kind) (x : Extent) : Option RegionError :=
  match kind with
  | .vertex =>
    (x.vertices.toList.find? (t.vertexCount ≤ ·)).map (.invalidVertexIndex · t.vertexCount)
  | k => (x.entities k).toList.findSome? (t.entityError? k)

end Topology

namespace Region

def complete (t : Topology) (r : Region) : Except RegionError Region :=
  match t.error? r.source r.extent with
  | some e => .error e
  | none =>
    let extent := t.derive r.source r.extent
    .ok { r with
      isComplete := true, extent, groups := t.groupsUsing extent.vertices, shape := extent.shape }

/-- Completes a region unless it is complete, on whatever topology that was. -/
def ensureComplete (t : Topology) (r : Region) : Except RegionError Region :=
  if r.isComplete then .ok r else r.complete t

/-- The numbers of the cells in the whole mesh. -/
def globalCells (t : Topology) (r : Region) : List Nat :=
  r.cells.toList.filterMap fun c =>
    (t.group? c.group).map fun g => min (min g.cellOffset maxIndex + c.index) maxIndex

/-- The vertices that a group uses. -/
def verticesOfGroup (t : Topology) (ig : Nat) (r : Region) : List Nat :=
  (t.group? ig).elim [] fun g => r.vertices.toList.filter g.hasVertex

end Region

end Subdomain

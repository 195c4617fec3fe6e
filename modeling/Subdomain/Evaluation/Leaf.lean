import Subdomain.Selection.Leaf
import Subdomain.Region.Completion
import Subdomain.Region.Collection
import Subdomain.Evaluation.Chooser

/-!
# Evaluating leaves

A leaf becomes a region with one authoritative set, which is then completed. An
index that the mesh does not have is an error, the first one in the order of the
list. A reference gives the region as it is; only a copy is completed.
-/

namespace Subdomain

/-- What a selection is evaluated against. -/
structure Context where
  mesh : Mesh
  topology : Topology
  regions : Collection
  functions : Functions

namespace Context

variable (x : Context)

/-- A vertex of the mesh. -/
def vertex (i : Int) : Except RegionError Nat :=
  if 0 ≤ i ∧ i < x.mesh.vertexCount then .ok i.toNat
  else .error (.invalidVertexIndex i x.mesh.vertexCount)

def vertices (is : List Int) : Except RegionError IdSet := return .ofList (← is.mapM x.vertex)

/-- A cell by its number in the mesh. -/
def cell (i : Int) : Except RegionError Entity :=
  match if 0 ≤ i then x.mesh.locateCell? i.toNat else none with
  | some c => .ok c
  | none => .error (.invalidCellIndex i x.topology.cellCount)

def cells (is : List Int) : Except RegionError EntitySet := return .ofList (← is.mapM x.cell)

/-- A cell by its group and its number there. -/
def groupCell (p : Int × Int) : Except RegionError Entity :=
  match if 0 ≤ p.1 then x.topology.group? p.1.toNat else none with
  | none => .error (.invalidGroupIndex p.1 x.topology.groupCount)
  | some g =>
    if 0 ≤ p.2 ∧ p.2 < g.cellCount then .ok ⟨g.index, p.2.toNat⟩
    else .error (.invalidCellIndex p.2 g.cellCount)

/-- The facets on the surface of the domain. -/
def surface : EntitySet :=
  .ofList <| (x.topology.surface.zipIdx).flatMap fun (ids, ig) => ids.map (⟨ig, ·⟩)

/-- All cells of the group with a material id. -/
def cellsOfMaterial (material : Int) : Except RegionError EntitySet :=
  match x.mesh.groupOfMaterial? material with
  | none => .error (.undefinedGroup material)
  | some ig =>
    let count := (x.topology.group? ig).elim 0 (·.cellCount)
    .ok (.ofList ((List.range count).map (⟨ig, ·⟩)))

/-- The vertices with a tag. -/
def verticesTagged (tag : Int) : IdSet :=
  .ofList ((x.mesh.tags.zipIdx.filter (·.1 = tag)).map (·.2))

/-- The region of a leaf with the given authoritative set. -/
def made (l : Selection.Leaf) (kind : Kind) (extent : Extent) : Except RegionError Region :=
  ((Region.empty l.text).reset kind extent).complete x.topology

open Selection in
def evalLeaf : Leaf → Except RegionError Region
  | .region n => x.regions.get n
  | .copy n => do (← x.regions.get n).ensureComplete x.topology
  | .all => x.made .all .vertex { vertices := .ofList (List.range x.mesh.vertexCount) }
  | .surface =>
    if x.topology.topDim = 0 then .error (.unsupported Leaf.surface.text .cells)
    else x.made .surface .facet { facets := x.surface }
  | .verticesIn p =>
    match p.select x.mesh.dim x.mesh.coors with
    | .ok vs => x.made (.verticesIn p) .vertex { vertices := .ofList vs }
    | .error f => .error (.predicate p.text f)
  | .verticesInList l => do x.made (.verticesInList l) .vertex { vertices := ← x.vertices l }
  | .vertices l => do x.made (.vertices l) .vertex { vertices := ← x.vertices l }
  | .verticesBy f => do
    let choose ← x.functions.find f
    let vertices ← x.vertices ((choose x.mesh.coors x.mesh).map Int.ofNat)
    x.made (.verticesBy f) .vertex { vertices }
  | .verticesOfGroup tag => x.made (.verticesOfGroup tag) .vertex { vertices := x.verticesTagged tag }
  | .verticesOfSet n =>
    match x.mesh.vertexSets.get? n with
    | none => .error (.undefinedVertexSet n)
    | some l => do
      x.made (.verticesOfSet n) .vertex { vertices := ← x.vertices (l.map Int.ofNat) }
  | .vertexOfRegion n => do
    match (← x.regions.get n).firstVertex? with
    | none => .error (.missingEntities n .vertex)
    | some v => x.made (.vertexOfRegion n) .vertex { vertices := .ofList [v] }
  | .cells l => do x.made (.cells l) .cell { cells := ← x.cells l }
  | .groupCells ps => do
    x.made (.groupCells ps) .cell { cells := .ofList (← ps.mapM x.groupCell) }
  | .cellsBy f => do
    let choose ← x.functions.find f
    let cells ← x.cells ((choose x.mesh.centroids x.mesh).map Int.ofNat)
    x.made (.cellsBy f) .cell { cells }
  | .cellsOfGroup m => do x.made (.cellsOfGroup m) .cell { cells := ← x.cellsOfMaterial m }
  | .cellsOfSet n =>
    match x.mesh.cellSets.get? n with
    | none => .error (.undefinedCellSet n)
    | some l => do x.made (.cellsOfSet n) .cell { cells := ← x.cells (l.map Int.ofNat) }

end Context

end Subdomain

import Subdomain.Region.Algebra
import Subdomain.Region.GroupSets

/-!
# Regions by group

A `GroupedRegion` keeps its edges, faces, facets and cells in sets by group, and every
operation goes through these group by group: a set that is given loses its empty entries,
and a group for which nothing is derived gets no entry. So no region that is made by the
operations has an empty entry, and what `GroupedRegion.flat` says of its entities is all
that there is to say of it (`Proofs/Region/Grouping`).
-/

namespace Subdomain

structure GroupedRegion where
  name : String
  definition : String
  parent : Option String
  kind : Kind
  /-- The kind of the authoritative set. -/
  source : Kind
  isComplete : Bool
  vertices : IdSet
  edges : GroupSets
  faces : GroupSets
  facets : GroupSets
  cells : GroupSets
  /-- The groups that use a vertex of the region, once it is complete. -/
  groups : IdSet
  shape : Shape
  deriving DecidableEq

/-- What a change to a region by group leaves behind, and the error if the change failed. -/
structure GroupedChange where
  region : GroupedRegion
  error? : Option RegionError

def GroupedChange.toExcept (c : GroupedChange) : Except RegionError GroupedRegion :=
  c.error?.elim (.ok c.region) .error

namespace GroupSets

/-- Applies a set operation in every group; a group without a set counts as empty. -/
def combine (o : SetOp) (a b : GroupSets) : GroupSets :=
  tabulate (a.groups ∪ b.groups) fun ig => o.apply (a.idsOf ig) (b.idsOf ig)

end GroupSets

namespace Topology

/-- What `f` gives for every group, where it is not empty. -/
def gather (t : Topology) (f : GroupTopology → IdSet) : GroupSets :=
  .ofList (t.groups.filterMap fun g => if (f g).isEmpty then none else some (g.index, f g))

/-- The vertices of the entities of a kind. -/
def verticesOf (t : Topology) (k : Kind) (s : GroupSets) : IdSet :=
  .ofList <| s.entries.flatMap fun e =>
    (t.group? e.1).elim [] fun g => e.2.toList.flatMap fun i => (g.entity? k i).getD []

/-- What is wrong with the set of a kind in one group. -/
def setError? (t : Topology) (k : Kind) (e : Nat × IdSet) : Option RegionError :=
  (t.group? e.1).elim (some (.invalidGroupIndex (min e.1 maxGroupIndex : Nat) t.groupCount))
    fun g => (e.2.toList.find? (g.count k ≤ ·)).map fun (i : Nat) =>
      if k = .cell then .invalidCellIndex i (g.count k)
      else .invalidEntityIndex k e.1 i (g.count k)

end Topology

/-- The numbers of the items all of whose vertices are in a set. -/
def IdSet.within (vertices : IdSet) (items : List (List Nat)) : IdSet :=
  .ofList ((items.zipIdx.filter fun (vs, _) => vs.all fun v => decide (v ∈ vertices)).map (·.2))

namespace GroupedRegion

/-- A region of no vertices, complete on every mesh. -/
def empty (name : String) : GroupedRegion where
  name := name
  definition := ""
  parent := none
  kind := .vertex
  source := .vertex
  isComplete := true
  vertices := ∅
  edges := ∅
  faces := ∅
  facets := ∅
  cells := ∅
  groups := ∅
  shape := {}

/-- The sets of a kind that is numbered by group; for vertices, those of the cells. -/
def sets (r : GroupedRegion) : Kind → GroupSets
  | .edge => r.edges
  | .face => r.faces
  | .facet => r.facets
  | .vertex | .cell => r.cells

/-- Gives a kind that is numbered by group other sets. -/
def put (r : GroupedRegion) (k : Kind) (s : GroupSets) : GroupedRegion :=
  match k with
  | .edge => { r with edges := s }
  | .face => { r with faces := s }
  | .facet => { r with facets := s }
  | .vertex | .cell => { r with cells := s }

/-- Drops all sets; the set of the kind `k` is the authoritative one from now on. -/
def invalidate (r : GroupedRegion) (k : Kind) : GroupedRegion :=
  { r with
    kind := k, source := k, isComplete := false, vertices := ∅, edges := ∅, faces := ∅,
    facets := ∅, cells := ∅, groups := ∅, shape := {} }

def setVertices (r : GroupedRegion) (vertices : IdSet) : GroupedRegion :=
  { r.invalidate .vertex with vertices }

/-- Makes the sets of one kind authoritative; of sets taken as vertices the groups do not count. -/
def setEntities (r : GroupedRegion) (k : Kind) (s : GroupSets) : GroupedRegion :=
  if k = .vertex then r.setVertices (.ofList (s.entries.flatMap (·.2.toList)))
  else (r.invalidate k).put k s.prune

def setCells (r : GroupedRegion) (s : GroupSets) : GroupedRegion := r.setEntities .cell s

def setName (r : GroupedRegion) (name : String) : GroupedRegion := { r with name }

def setDefinition (r : GroupedRegion) (definition : String) : GroupedRegion :=
  { r with definition }

def setParent (r : GroupedRegion) (parent : Option String) : GroupedRegion := { r with parent }

def ofVertices (name : String) (vertices : IdSet) : GroupedRegion :=
  (empty name).setVertices vertices

def ofEntities (name : String) (k : Kind) (s : GroupSets) : GroupedRegion :=
  (empty name).setEntities k s

/-! ## Completion -/

variable (t : Topology) (r : GroupedRegion)

/-- What is wrong with the authoritative set: the first group or index that the topology does not
have. -/
def error? : Option RegionError :=
  if r.source = .vertex then
    (r.vertices.toList.find? (t.vertexCount ≤ ·)).map (.invalidVertexIndex · t.vertexCount)
  else (r.sets r.source).entries.findSome? (t.setError? r.source)

/-- The entities of a kind numbered by tables: those of the cells if the cells are authoritative,
and else those within the vertices. -/
def deriveEntities (k : Kind) : GroupSets :=
  t.gather fun g => (g.table? k).elim ∅ fun table =>
    if r.source = .cell then .ofList ((r.cells.idsOf g.index).toList.flatMap table.ofCell)
    else .within r.vertices table.entities

/-- The cells that own an entity of the authoritative set, or those within the vertices. -/
def deriveCells : GroupSets :=
  t.gather fun g => (g.table? r.source).elim (.within r.vertices g.cells) fun table =>
    .ofList (((r.sets r.source).idsOf g.index).toList.flatMap table.ownersOf)

/-- How many entities of every kind there are. -/
def count : Shape where
  vertices := r.vertices.size
  edges := r.edges.size
  faces := r.faces.size
  facets := r.facets.size
  cells := r.cells.size

def deriveVertices : GroupedRegion :=
  if r.source = .vertex then r
  else { r with vertices := t.verticesOf r.source (r.sets r.source) }

/-- Derives everything from the authoritative set: first the vertices, then the edges, faces and
facets, then the cells. -/
def derive : GroupedRegion :=
  let r := r.deriveVertices t
  let r := [Kind.edge, .face, .facet].foldl
    (fun r k => if k = r.source then r else r.put k (r.deriveEntities t k)) r
  let r := if r.source = .cell then r else { r with cells := r.deriveCells t }
  { r with isComplete := true, groups := t.groupsUsing r.vertices, shape := r.count }

/-- Completes a region; on failure it stays as it is. -/
def complete : GroupedChange :=
  (r.error? t).elim ⟨r.derive t, none⟩ (⟨r, some ·⟩)

def ensureComplete : GroupedChange := if r.isComplete then ⟨r, none⟩ else r.complete t

/-! ## Conversion and combination -/

/-- Takes the set of a kind out and makes it authoritative. -/
def promote (k : Kind) : GroupedRegion :=
  if k = .vertex then { r with vertices := ∅ }.setVertices r.vertices
  else (r.put k ∅).setEntities k (r.sets k)

/-- Converts a region to a kind. -/
def setKind (k : Kind) : GroupedChange :=
  if k = .face ∧ !t.hasFaces then ⟨r, some (.unsupported k.name .faces)⟩
  else
    let c := r.ensureComplete t
    if c.error?.isSome then c
    else if k = c.region.source then ⟨{ c.region with kind := k }, none⟩
    else (c.region.promote k).complete t

/-- Whether the set of a kind is there to be read. -/
def hasSet (k : Kind) : Bool := r.isComplete || decide (r.source = k)

/-- What keeps two regions from being combined. -/
def combineError? (o : SetOperator) (a b : GroupedRegion) : Option RegionError :=
  if o.target = .face ∧ !t.hasFaces then some (.unsupported o.text .faces)
  else ([a, b].find? fun r => !r.hasSet o.target).map fun r => .missingEntities r.name o.target

/-- The combination of two regions before it is completed. -/
def merge (o : SetOperator) (a b : GroupedRegion) : GroupedRegion :=
  let name := a.name ++ o.text ++ b.name
  if o.target = .vertex then ofVertices name (o.op.apply a.vertices b.vertices)
  else ofEntities name o.target (.combine o.op (a.sets o.target) (b.sets o.target))

def combine (o : SetOperator) (a b : GroupedRegion) : Except RegionError GroupedRegion :=
  (combineError? t o a b).elim ((merge o a b).complete t).toExcept .error

/-! ## What a region tells -/

def hasCells (r : GroupedRegion) : Bool := !r.cells.isEmpty

def isEmpty (r : GroupedRegion) : Bool :=
  r.vertices.isEmpty && r.cells.isEmpty && r.facets.isEmpty && r.edges.isEmpty && r.faces.isEmpty

/-- Whether two regions hold the same entities, whatever their names. -/
def sameEntities (a b : GroupedRegion) : Bool :=
  decide (a.vertices = b.vertices) && decide (a.edges = b.edges) && decide (a.faces = b.faces) &&
    decide (a.facets = b.facets) && decide (a.cells = b.cells)

def cellsOfGroup? (r : GroupedRegion) (ig : Nat) : Option IdSet := r.cells.get? ig

/-- The numbers of the cells in the whole mesh. -/
def globalCells (t : Topology) (r : GroupedRegion) : List Nat :=
  r.cells.entries.flatMap fun e => (t.group? e.1).elim [] fun g =>
    e.2.toList.map fun i => min (min g.cellOffset maxIndex + i) maxIndex

/-- The region with its entities told one by one. -/
def flat (r : GroupedRegion) : Region where
  name := r.name
  definition := r.definition
  parent := r.parent
  kind := r.kind
  source := r.source
  isComplete := r.isComplete
  extent :=
    { vertices := r.vertices, edges := r.edges.flat, faces := r.faces.flat
      facets := r.facets.flat, cells := r.cells.flat }
  groups := r.groups
  shape := r.shape

end GroupedRegion

/-- The region with its entities by group. -/
def Region.grouped (r : Region) : GroupedRegion where
  name := r.name
  definition := r.definition
  parent := r.parent
  kind := r.kind
  source := r.source
  isComplete := r.isComplete
  vertices := r.extent.vertices
  edges := .ofEntities r.extent.edges
  faces := .ofEntities r.extent.faces
  facets := .ofEntities r.extent.facets
  cells := .ofEntities r.extent.cells
  groups := r.groups
  shape := r.shape

end Subdomain

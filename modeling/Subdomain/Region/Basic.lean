import Subdomain.Kind
import Subdomain.SortedSet
import Subdomain.Region.Error

/-!
# Regions

A region is a named set of mesh entities. The set of one kind is authoritative;
the sets of the other kinds follow from it by the connectivity of the mesh
(`Region/Completion.lean`). Until they are derived the region is incomplete, and
replacing the authoritative set makes it incomplete again.
-/

namespace Subdomain

/-- One set of entities for every kind. Vertices are numbered over the whole mesh. -/
@[ext] structure Extent where
  vertices : IdSet := ∅
  edges : EntitySet := ∅
  faces : EntitySet := ∅
  facets : EntitySet := ∅
  cells : EntitySet := ∅
  deriving DecidableEq

namespace Extent

/-- The entities of a kind that is numbered by group; for vertices, the cells. -/
def entities (x : Extent) : Kind → EntitySet
  | .edge => x.edges
  | .face => x.faces
  | .facet => x.facets
  | .vertex | .cell => x.cells

/-- The extent that holds one set only; of entities taken as vertices the groups do not count. -/
def only (k : Kind) (s : EntitySet) : Extent :=
  match k with
  | .vertex => { vertices := .ofList (s.toList.map (·.index)) }
  | .edge => { edges := s }
  | .face => { faces := s }
  | .facet => { facets := s }
  | .cell => { cells := s }

/-- The part of an extent that belongs to one kind. -/
def part (x : Extent) : Kind → Extent
  | .vertex => { vertices := x.vertices }
  | k => only k (x.entities k)

def isEmpty (x : Extent) : Bool :=
  x.vertices.isEmpty && x.cells.isEmpty && x.facets.isEmpty && x.edges.isEmpty && x.faces.isEmpty

end Extent

/-- How many entities of every kind there are. -/
structure Shape where
  vertices : Nat := 0
  edges : Nat := 0
  faces : Nat := 0
  facets : Nat := 0
  cells : Nat := 0
  deriving DecidableEq, Repr

def Extent.shape (x : Extent) : Shape where
  vertices := x.vertices.size
  edges := x.edges.size
  faces := x.faces.size
  facets := x.facets.size
  cells := x.cells.size

structure Region where
  name : String
  /-- The selection text that the region was made from. -/
  definition : String
  parent : Option String
  kind : Kind
  /-- The kind of the authoritative set. -/
  source : Kind
  isComplete : Bool
  extent : Extent
  /-- The groups that use a vertex of the region, once it is complete. -/
  groups : IdSet
  shape : Shape
  deriving DecidableEq

namespace Region

/-- A region of no vertices, complete on every mesh. -/
def empty (name : String) : Region where
  name := name
  definition := ""
  parent := none
  kind := .vertex
  source := .vertex
  isComplete := true
  extent := {}
  groups := ∅
  shape := {}

/-- Makes the set of one kind authoritative and drops everything else. -/
def reset (r : Region) (kind : Kind) (extent : Extent) : Region :=
  { r with kind, source := kind, extent, isComplete := false, groups := ∅, shape := {} }

def setVertices (r : Region) (vertices : IdSet) : Region := r.reset .vertex { vertices }

def setEntities (r : Region) (kind : Kind) (s : EntitySet) : Region := r.reset kind (.only kind s)

def setCells (r : Region) (s : EntitySet) : Region := r.setEntities .cell s

def setName (r : Region) (name : String) : Region := { r with name }

def setDefinition (r : Region) (definition : String) : Region := { r with definition }

def setParent (r : Region) (parent : Option String) : Region := { r with parent }

def ofVertices (name : String) (vertices : IdSet) : Region := (empty name).setVertices vertices

def ofEntities (name : String) (kind : Kind) (s : EntitySet) : Region :=
  (empty name).setEntities kind s

def vertices (r : Region) : IdSet := r.extent.vertices

def cells (r : Region) : EntitySet := r.extent.cells

def entities (r : Region) (k : Kind) : EntitySet := r.extent.entities k

def firstVertex? (r : Region) : Option Nat := r.vertices.min?

def isEmpty (r : Region) : Bool := r.extent.isEmpty

/-- Whether the region holds every vertex of a mesh that has some. -/
def isWhole (r : Region) (vertexCount : Nat) : Bool :=
  decide (0 < vertexCount) && decide (r.vertices.size = vertexCount)

/-- Whether two regions hold the same entities, whatever their names. -/
def sameEntities (r t : Region) : Bool := decide (r.extent = t.extent)

end Region

end Subdomain

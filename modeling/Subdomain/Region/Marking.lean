import Subdomain.Mesh.Basic
import Subdomain.Region.Collection

/-!
# Marking

Marks the vertices and cells of a mesh by the regions that hold them. Regions are
numbered in their order, except that the first one that holds all vertices comes
first of all. A vertex gets the number of the last region that holds it and else
keeps its tag. Every region numbers its cells group by group with a number of
their own; a cell gets the last of its numbers and else keeps its material id.
-/

namespace Subdomain

structure Marking where
  order : List String
  vertices : List Int
  /-- The numbers of the cells of every group. -/
  cells : List (List Int)
  /-- For every region, one where it holds a vertex and zero elsewhere. -/
  masks : NameTable (List Float)

namespace Marking

/-- Writes `x` at the given places. -/
def setAll {α : Type} (x : α) (places : List Nat) (l : List α) : List α :=
  places.foldl (fun l i => l.set i x) l

/-- The tags of the vertices, cut or filled with zeros to the given length. -/
def tagsOf (m : Mesh) : List Int :=
  m.tags.take m.vertexCount ++ List.replicate (m.vertexCount - m.tags.length) 0

/-- The marking by no regions. -/
def start (m : Mesh) : Marking where
  order := []
  vertices := tagsOf m
  cells := m.groups.map fun g => List.replicate g.cellCount g.material
  masks := .empty

/-- Numbers the cells of each group of a region; groups that the mesh does not have get no
number. -/
def markCells : List (Nat × List Nat) → Int × List (List Int) → Int × List (List Int)
  | [], s => s
  | (ig, ids) :: rest, (next, cells) =>
    markCells rest <|
      if ig < cells.length then (next + 1, cells.modify ig (setAll next ids)) else (next, cells)

/-- Marks by the regions in turn: `number` is the number of the first one and `next` the number of
its first group of cells. -/
def markFrom (vertexCount number : Nat) (next : Int) : List Region → Marking → Marking
  | [], k => k
  | r :: rs, k =>
    let places := r.vertices.toList.filter (· < vertexCount)
    let (next, cells) := markCells r.cells.byGroup (next, k.cells)
    markFrom vertexCount (number + 1) next rs
      { order := k.order ++ [r.name]
        vertices := setAll (number : Int) places k.vertices
        cells
        masks := k.masks.insert r.name (setAll 1 places (List.replicate vertexCount 0)) }

/-- The regions with the first one that is whole in front. -/
def wholeFirst (vertexCount : Nat) (rs : List Region) : List Region :=
  match rs.findIdx? (·.isWhole vertexCount) with
  | some i => rs[i]?.toList ++ rs.eraseIdx i
  | none => rs

end Marking

namespace Collection

/-- The regions with the given names, all of them without names. -/
def select (c : Collection) : Option (List String) → Except RegionError (List Region)
  | none => .ok c.regions
  | some names => names.mapM c.get

/-- Marks a mesh by the regions with the given names. -/
def mark (c : Collection) (m : Mesh) (names : Option (List String)) :
    Except RegionError Marking := do
  let rs ← c.select names
  return Marking.markFrom m.vertexCount 0 0 (Marking.wholeFirst m.vertexCount rs) (Marking.start m)

end Collection

end Subdomain

import Subdomain.Mesh.Basic
import Subdomain.Lists

/-!
# Entity tables

The edges, faces or facets of a group. Two local entities are the same entity if
they have the same vertices; entities are numbered from zero in the order in
which the cells, read one after the other, first show them. The table keeps the
vertices of every entity, the entities of every cell and the cells that own every
entity.
-/

namespace Subdomain

/-- The numbers in ascending order, repeats kept. -/
def ascending (l : List Nat) : List Nat := sortBy id l

theorem perm_ascending (l : List Nat) : (ascending l).Perm l := perm_sortBy l

theorem pairwise_ascending (l : List Nat) : (ascending l).Pairwise (· ≤ ·) := pairwise_sortBy l

structure EntityTable where
  /-- The vertices of every entity, ascending. -/
  entities : List (List Nat)
  /-- The entities of every cell, in local order. -/
  cells : List (List Nat)
  /-- The cells of every entity, ascending, one entry for each local entity. -/
  owners : List (List Nat)
  deriving DecidableEq, Repr

namespace EntityTable

def empty : EntityTable := ⟨[], [], []⟩

/-- The vertices of a local entity of a cell. -/
def key (cell positions : List Nat) : List Nat := ascending (positions.filterMap (cell[·]?))

/-- Enters an entity of cell `c`, a new one if its vertices are new. -/
def enter (t : EntityTable) (c : Nat) (key : List Nat) : EntityTable × Nat :=
  match t.entities.idxOf? key with
  | some id => ({ t with owners := t.owners.modify id (· ++ [c]) }, id)
  | none =>
    ({ t with entities := t.entities ++ [key], owners := t.owners ++ [[c]] }, t.entities.length)

/-- Enters several entities of cell `c` and lists their numbers. -/
def enterAll (c : Nat) : EntityTable → List (List Nat) → EntityTable × List Nat
  | t, [] => (t, [])
  | t, k :: ks =>
    let (t, id) := t.enter c k
    let (t, ids) := enterAll c t ks
    (t, id :: ids)

/-- Enters the cells from number `c` on. -/
def enterCells (positions : List (List Nat)) : Nat → EntityTable → List (List Nat) → EntityTable
  | _, t, [] => t
  | c, t, cell :: cells =>
    let (t, ids) := enterAll c t (positions.map (key cell))
    enterCells positions (c + 1) { t with cells := t.cells ++ [ids] } cells

/-- The table of the entities at the given local positions; no positions give no entries. -/
def ofCells (positions : List (List Nat)) (cells : List (List Nat)) : EntityTable :=
  if positions.isEmpty then empty else enterCells positions 0 empty cells

def size (t : EntityTable) : Nat := t.entities.length

def isEmpty (t : EntityTable) : Bool := t.entities.isEmpty

/-- The vertices of entity `id`. -/
def vertices? (t : EntityTable) (id : Nat) : Option (List Nat) := t.entities[id]?

/-- The entities of cell `c`, none if there is no such cell. -/
def ofCell (t : EntityTable) (c : Nat) : List Nat := (t.cells[c]?).getD []

/-- The cells of entity `id`, none if there is no such entity. -/
def ownersOf (t : EntityTable) (id : Nat) : List Nat := (t.owners[id]?).getD []

/-- How often the entity with these vertices occurs in a cell of the group. -/
def uses (t : EntityTable) (key : List Nat) : Nat :=
  (t.entities.idxOf? key).elim 0 fun id => (t.ownersOf id).length

end EntityTable

end Subdomain

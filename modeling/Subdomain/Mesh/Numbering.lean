import Subdomain.Mesh.Basic

/-!
# Cell numbering

Cells are numbered inside their group and, group after group, over the whole
mesh. The number of the first cell of a group is the count of all cells before
it.
-/

namespace Subdomain

namespace Mesh

/-- The running totals before every group, from `first` on. -/
def offsetsFrom (first : Nat) : List ElementGroup → List Nat
  | [] => []
  | g :: gs => first :: offsetsFrom (first + g.cellCount) gs

/-- The number of the first cell of every group. -/
def cellOffsets (m : Mesh) : List Nat := offsetsFrom 0 m.groups

/-- Where cell `i` of the groups from `ig` on stands. -/
def locateFrom (ig i : Nat) : List ElementGroup → Option Entity
  | [] => none
  | g :: gs => if i < g.cellCount then some ⟨ig, i⟩ else locateFrom (ig + 1) (i - g.cellCount) gs

/-- The group of a cell and its index there. -/
def locateCell? (m : Mesh) (cell : Nat) : Option Entity := locateFrom 0 cell m.groups

/-- The mean of the vertices of a cell, summed in their order. -/
def centroid (m : Mesh) (cell : List Nat) : Point :=
  let sum := cell.foldl (fun acc v => (m.coors[v]?).elim acc (acc + ·)) .zero
  sum.map (· / Float.ofNat cell.length)

/-- The centroids of all cells, by their number in the mesh. -/
def centroids (m : Mesh) : List Point := (m.groups.flatMap (·.cells)).map m.centroid

theorem length_offsetsFrom {first : Nat} {gs : List ElementGroup} :
    (offsetsFrom first gs).length = gs.length := by
  induction gs generalizing first with
  | nil => rfl
  | cons g gs ih => simp [offsetsFrom, ih]

end Mesh

end Subdomain

import Mathlib.Data.List.Basic
import Mathlib.Data.Set.Function
import Subdomain.Proofs.Evaluation.Indices
import Subdomain.Proofs.Region.Combination

/-!
# One numbering of cells

Looking a cell up, the offsets of the groups, the order of the centroids and the numbers
of the cells of a region all count cells in the same way (`CellNumbering`); the centroid
with a number is the mean of the vertices of the cell with that number. So the cells
with given numbers make a region that gives these numbers back, ascending, and it is the
region of the same cells by group and number (`Context.Numbered`). Numbers of cells stop at
`maxIndex`; they are counted up to there.
-/

namespace Subdomain

namespace Mesh

variable {m : Mesh}

/-- The mean of the coordinates that the vertices of a cell have on an axis, added in the order of
the cell. -/
def mean (m : Mesh) (cell : List Nat) (axis : Axis) : Float :=
  (cell.filterMap fun v => (m.coors[v]?).map (·.get axis)).foldl (· + ·) 0 /
    Float.ofNat cell.length

/-- The ways to number the cells of a mesh agree. -/
structure CellNumbering (m : Mesh) : Prop where
  bijOn : Set.BijOn m.locateCell? {i | i < m.cellCount} {o | ∃ c, m.HasCell c ∧ o = some c}
  beyond : ∀ i, m.cellCount ≤ i → m.locateCell? i = none
  inverse : ∀ c, m.HasCell c → ∃ offset, m.cellOffsets[c.group]? = some offset ∧
    offset + c.index < m.cellCount ∧ m.locateCell? (offset + c.index) = some c
  offsets : (Topology.ofMesh m).groups.map (·.cellOffset) = m.cellOffsets
  centroids : ∀ i, m.centroids[i]? =
    ((m.locateCell? i).bind (m.vertices? .cell)).map fun cell => .ofAxes (m.mean cell)

theorem bijOn_locateCell? :
    Set.BijOn m.locateCell? {i | i < m.cellCount} {o | ∃ c, m.HasCell c ∧ o = some c} := by
  refine ⟨fun i hi => ?_, fun i hi j hj h => ?_, ?_⟩
  · obtain ⟨c, hc⟩ := exists_locateCell? hi
    exact ⟨c, (locateCell?_eq_some_iff.1 hc).1, hc⟩
  · obtain ⟨c, hc⟩ := exists_locateCell? hi
    have hci := (locateCell?_eq_some_iff.1 hc).2
    have hcj := (locateCell?_eq_some_iff.1 (h ▸ hc)).2
    exact hci.trans hcj.symm
  · rintro o ⟨c, hc, rfl⟩
    exact ⟨m.cellNumber c, hc.cellNumber_lt, hc.locateCell?⟩

/-- Points are added axis by axis. -/
theorem get_centroid {cell : List Nat} {axis : Axis} :
    (m.centroid cell).get axis = m.mean cell axis := by
  have hmap (p : Point) (f : Float → Float) : (p.map f).get axis = f (p.get axis) := by
    cases axis <;> rfl
  have hzero : Point.zero.get axis = 0 := by cases axis <;> rfl
  unfold centroid mean
  rw [hmap, List.foldl_filterMap, ← hzero]
  refine congrArg (· / _) (List.foldl_hom (fun p : Point => p.get axis) fun p v => ?_).symm
  cases m.coors[v]? with
  | none => rfl
  | some q => cases axis <;> rfl

theorem centroid_eq {cell : List Nat} : m.centroid cell = .ofAxes (m.mean cell) := by
  simp only [Point.ofAxes, ← get_centroid, Point.get]

theorem cellNumbering (m : Mesh) : m.CellNumbering where
  bijOn := bijOn_locateCell?
  beyond _ h := locateCell?_eq_none_iff.2 h
  inverse c hc := by
    have hc' := hc
    obtain ⟨g, hg, -⟩ := hc'
    refine ⟨m.firstCell c.group, ?_, hc.cellNumber_lt, hc.locateCell?⟩
    rw [getElem?_cellOffsets, hg]
    rfl
  offsets := Topology.cellOffsets_ofMesh
  centroids _ := by
    rw [getElem?_centroids]
    exact congrArg (Option.map · _) (funext fun _ => centroid_eq)

end Mesh

namespace Region

variable {m : Mesh} {r : Region} {i : Nat} (hm : m.cellCount ≤ maxIndex)
  (hr : ∀ c ∈ r.cells, m.HasCell c)
include hm hr

/-- Where every number can be told, the cells of a region are told by their numbers. -/
theorem globalCells_eq : r.globalCells (.ofMesh m) = r.cells.toList.map m.cellNumber := by
  refine List.filterMap_eq_map_iff_forall_eq_some.2 fun c hc => ?_
  have hlt := (hr c hc).cellNumber_lt
  obtain ⟨g, hg, -⟩ := hr c hc
  rw [Topology.group?_ofMesh, hg]
  show some (min (min (m.firstCell c.group) maxIndex + c.index) maxIndex) = some (m.cellNumber c)
  unfold Mesh.cellNumber at hlt ⊢
  rw [Option.some.injEq]
  omega

theorem pairwise_globalCells : (r.globalCells (.ofMesh m)).Pairwise (· < ·) := by
  rw [globalCells_eq hm hr, List.pairwise_map]
  exact r.cells.sorted.imp_of_mem fun {c d} hc _ hlt => (hr c hc).cellNumber_lt_cellNumber hlt

theorem mem_globalCells_iff :
    i ∈ r.globalCells (.ofMesh m) ↔ ∃ c ∈ r.cells, m.cellNumber c = i := by
  rw [globalCells_eq hm hr, List.mem_map]
  rfl

end Region

/-- Settled regions of the same cells have the same entities. -/
theorem Region.Settled.sameEntities_of_cells {t : Topology} {r s : Region} (hr : r.Settled t)
    (hs : s.Settled t) (hkr : r.kind = .cell) (hks : s.kind = .cell) (h : r.cells = s.cells) :
    r.sameEntities s = true := by
  have hpart : r.extent.part r.kind = s.extent.part r.kind := by
    rw [hkr]
    exact congrArg (Extent.only .cell) h
  exact decide_eq_true (hr.extent_congr hs (hkr.trans hks.symm) hpart)

namespace Context

open Selection

variable {x : Context}

/-- A cell as a text names it by its group and its number there. -/
def pairOf (c : Entity) : Int × Int := (c.group, c.index)

/-- The region of the cells with the numbers `is`. -/
structure Numbered (x : Context) (is : List Nat) (r : Region) : Prop where
  evaluated : x.evalLeaf (.cells (is.map Int.ofNat)) = .ok r
  ascending : (r.globalCells x.topology).Pairwise (· < ·)
  members : ∀ i, i ∈ r.globalCells x.topology ↔ i ∈ is
  pairs : ∀ cs : List Entity, (∀ c, c ∈ cs ↔ ∃ i ∈ is, x.mesh.locateCell? i = some c) →
    ∃ s, x.evalLeaf (.groupCells (cs.map pairOf)) = .ok s ∧ r.sameEntities s = true

section

variable (ht : x.topology = .ofMesh x.mesh)
include ht

theorem exists_evalLeaf_cells {is : List Nat} (his : ∀ i ∈ is, i < x.mesh.cellCount) :
    ∃ r, x.evalLeaf (.cells (is.map Int.ofNat)) = .ok r ∧ r.Settled x.topology ∧
      r.kind = .cell ∧ ∀ c, c ∈ r.cells ↔ ∃ i ∈ is, x.mesh.locateCell? i = some c := by
  obtain ⟨-, r, hr, hsettled, hkind, hcells⟩ :=
    (reads_cells ht (.cells (is.map Int.ofNat))).selects fun i hi e ⟨hout⟩ => by
      obtain ⟨n, hn, rfl⟩ := List.mem_map.1 hi
      exact hout ⟨Int.natCast_nonneg n, Int.ofNat_lt.2 (his n hn)⟩
  refine ⟨r, hr, hsettled, hkind, fun c => ?_⟩
  simp only [hcells, List.mem_map, Mesh.locateCell?_eq_some_iff, Mesh.DenotesCell]
  constructor
  · rintro ⟨-, ⟨n, hn, rfl⟩, hc, hnumber⟩
    exact ⟨n, hn, hc, Int.ofNat_inj.1 hnumber⟩
  · rintro ⟨n, hn, hc, rfl⟩
    exact ⟨_, ⟨_, hn, rfl⟩, hc, rfl⟩

theorem exists_evalLeaf_groupCells {cs : List Entity} (hcs : ∀ c ∈ cs, x.mesh.HasCell c) :
    ∃ s, x.evalLeaf (.groupCells (cs.map pairOf)) = .ok s ∧ s.Settled x.topology ∧
      s.kind = .cell ∧ ∀ c, c ∈ s.cells ↔ c ∈ cs := by
  have hpair {c : Entity} (hc : x.mesh.HasCell c) : x.mesh.DenotesPair (pairOf c) c := ⟨hc, rfl⟩
  obtain ⟨-, s, hs, hsettled, hkind, hcells⟩ :=
    (reads_groupCells ht (cs.map pairOf)).selects fun p hp e hfault => by
      obtain ⟨c, hc, rfl⟩ := List.mem_map.1 hp
      have hok := (groupCell_eq_ok_iff ht).2 (hpair (hcs c hc))
      cases hok.symm.trans ((groupCell_eq_error_iff ht).2 hfault)
  refine ⟨s, hs, hsettled, hkind, fun c => ?_⟩
  rw [hcells]
  constructor
  · rintro ⟨p, hp, hdenotes⟩
    obtain ⟨d, hd, rfl⟩ := List.mem_map.1 hp
    have hok := (groupCell_eq_ok_iff ht).2 (hpair (hcs d hd))
    cases hok.symm.trans ((groupCell_eq_ok_iff ht).2 hdenotes)
    exact hd
  · intro hc
    exact ⟨_, List.mem_map.2 ⟨c, hc, rfl⟩, hpair (hcs c hc)⟩

theorem exists_numbered (hm : x.mesh.cellCount ≤ maxIndex) {is : List Nat}
    (his : ∀ i ∈ is, i < x.mesh.cellCount) : ∃ r, x.Numbered is r := by
  obtain ⟨r, hr, hsettled, hkind, hcells⟩ := exists_evalLeaf_cells ht his
  have hhas : ∀ c ∈ r.cells, x.mesh.HasCell c := by
    intro c hc
    obtain ⟨i, -, hi⟩ := (hcells c).1 hc
    exact (Mesh.locateCell?_eq_some_iff.1 hi).1
  refine ⟨r, hr, ht ▸ Region.pairwise_globalCells hm hhas, fun i => ?_, fun cs hcs => ?_⟩
  · rw [ht, Region.mem_globalCells_iff hm hhas]
    constructor
    · rintro ⟨c, hc, rfl⟩
      obtain ⟨i, hi, hlocated⟩ := (hcells c).1 hc
      rwa [← (Mesh.locateCell?_eq_some_iff.1 hlocated).2]
    · intro hi
      obtain ⟨c, hc⟩ := Mesh.exists_locateCell? (his i hi)
      exact ⟨c, (hcells c).2 ⟨i, hi, hc⟩, (Mesh.locateCell?_eq_some_iff.1 hc).2.symm⟩
  · have hsame (c : Entity) : c ∈ cs ↔ c ∈ r.cells := (hcs c).trans (hcells c).symm
    obtain ⟨s, hs, hsettled', hkind', hcells'⟩ :=
      exists_evalLeaf_groupCells ht fun c hc => hhas c ((hsame c).1 hc)
    refine ⟨s, hs, hsettled.sameEntities_of_cells hsettled' hkind hkind' ?_⟩
    ext c
    rw [hcells', hsame]

/-- On a mesh whose cells can all be told by number there is one numbering of cells, and cells
selected by their numbers are those selected by group. -/
theorem numbering_agrees (hm : x.mesh.cellCount ≤ maxIndex) : x.mesh.CellNumbering ∧
    ∀ is : List Nat, (∀ i ∈ is, i < x.mesh.cellCount) → ∃ r, x.Numbered is r :=
  ⟨x.mesh.cellNumbering, fun _ his => exists_numbered ht hm his⟩

end

/-- The cells before and after a group without cells. -/
theorem numbering_agrees_square :
    let m := ((Mesh.unitSquare 2 1).pushGroup ⟨7, .triangle, []⟩).pushGroup ⟨5, .line, [0, 1]⟩
    let x : Context := ⟨m, .ofMesh m, .empty, .empty⟩
    m.CellNumbering ∧ ∃ r, x.Numbered [2, 0, 2] r ∧ r.globalCells x.topology = [0, 2] ∧
      r.cells.toList = [⟨0, 0⟩, ⟨2, 0⟩] := by
  intro m x
  obtain ⟨hnumbering, hnumbered⟩ := numbering_agrees (x := x) rfl (by decide +kernel)
  obtain ⟨r, hr⟩ := hnumbered [2, 0, 2] (by decide +kernel)
  obtain ⟨s, hs, hcells⟩ : ∃ s, x.evalLeaf (.cells [2, 0, 2]) = .ok s ∧
      (s.globalCells x.topology, s.cells.toList) = ([0, 2], [⟨0, 0⟩, ⟨2, 0⟩]) :=
    exists_ok_of_toOption (by decide +kernel)
  cases hs.symm.trans hr.evaluated
  exact ⟨hnumbering, r, hr, Prod.mk.inj hcells⟩

end Context

end Subdomain

import Mathlib.Logic.ExistsUnique
import Subdomain.Mesh.Grid
import Subdomain.Proofs.Evaluation.Settled
import Subdomain.Proofs.Region.Derivation
import Subdomain.Proofs.Topology.CellNumbers

/-!
# Indices

A leaf that lists vertices or cells, looks such a list up or has it made by a function
reads the list entry by entry. An entry outside the mesh, or outside its group, is at
fault, and the first fault of the list is reported (`Reads.fails`). Otherwise every entry
denotes one vertex or cell, and the region holds what the entries denote and nothing else
(`Reads.selects`).
-/

namespace Subdomain

namespace Mesh

variable (m : Mesh)

inductive VertexFault (i : Int) : RegionError → Prop where
  | outside : ¬ (0 ≤ i ∧ i < m.vertexCount) → VertexFault i (.invalidVertexIndex i m.vertexCount)

inductive CellFault (i : Int) : RegionError → Prop where
  | outside : ¬ (0 ≤ i ∧ i < m.cellCount) → CellFault i (.invalidCellIndex i m.cellCount)

/-- A cell by group and number is counted out of the group only if there is such a group. -/
inductive PairFault : Int × Int → RegionError → Prop where
  | group {ig i : Int} :
      ¬ (0 ≤ ig ∧ ig < m.groupCount) → PairFault (ig, i) (.invalidGroupIndex ig m.groupCount)
  | cell {ig : Nat} {i : Int} {g : ElementGroup} :
      m.groups[ig]? = some g → ¬ (0 ≤ i ∧ i < g.cellCount) →
      PairFault (ig, i) (.invalidCellIndex i g.cellCount)

def DenotesVertex (i : Int) (v : Nat) : Prop := i = v ∧ v < m.vertexCount

def DenotesCell (i : Int) (c : Entity) : Prop := m.HasCell c ∧ i = m.cellNumber c

def DenotesPair (p : Int × Int) (c : Entity) : Prop := m.HasCell c ∧ p = (↑c.group, ↑c.index)

variable {m}

theorem HasCell.has {c : Entity} (h : m.HasCell c) : (Topology.ofMesh m).Has .cell c :=
  Topology.has_ofMesh_iff.2 (hasCell_iff.1 h)

variable (m) in
theorem group_cases (ig : Int) :
    (∃ (n : Nat) (g : ElementGroup), ig = ↑n ∧ m.groups[n]? = some g) ∨ ¬ (0 ≤ ig ∧ ig < m.groupCount) := by
  by_cases h : 0 ≤ ig ∧ ig < m.groupCount
  · have hlt : ig.toNat < m.groups.length := by
      unfold groupCount at h
      omega
    exact .inl ⟨ig.toNat, _, by omega, List.getElem?_eq_getElem hlt⟩
  · exact .inr h

end Mesh

namespace Context

open Selection

variable {x : Context} {i : Int} {v : Nat} {c : Entity} {p : Int × Int} {e : RegionError}

/-! ## Entries -/

theorem vertex_eq_ok_iff : x.vertex i = .ok v ↔ x.mesh.DenotesVertex i v := by
  unfold vertex Mesh.DenotesVertex
  split
  · rw [Except.ok.injEq]
    omega
  · exact iff_of_false (by simp) (by omega)

theorem vertex_eq_error_iff : x.vertex i = .error e ↔ x.mesh.VertexFault i e := by
  unfold vertex
  split
  · rename_i hi
    exact iff_of_false (by simp) fun ⟨h⟩ => h hi
  · rename_i hi
    refine ⟨fun h => ?_, fun ⟨_⟩ => rfl⟩
    cases h
    exact .outside hi

theorem cell_eq_ok_iff : x.cell i = .ok c ↔ x.mesh.DenotesCell i c := by
  have hlocate : (if 0 ≤ i then x.mesh.locateCell? i.toNat else none) = some c ↔
      x.mesh.DenotesCell i c := by
    unfold Mesh.DenotesCell
    split
    · rw [Mesh.locateCell?_eq_some_iff]
      exact and_congr_right fun _ => by omega
    · exact iff_of_false (by simp) (by omega)
  rw [← hlocate, cell]
  split
  · rename_i c' hc'
    rw [hc', Except.ok.injEq, Option.some.injEq]
  · rename_i hnone
    exact iff_of_false (by simp) (by simp [hnone])

section

variable (ht : x.topology = .ofMesh x.mesh)
include ht

theorem cell_eq_error_iff : x.cell i = .error e ↔ x.mesh.CellFault i e := by
  have hnone : (if 0 ≤ i then x.mesh.locateCell? i.toNat else none) = none ↔
      ¬ (0 ≤ i ∧ i < x.mesh.cellCount) := by
    split
    · rw [Mesh.locateCell?_eq_none_iff]
      omega
    · exact iff_of_true rfl (by omega)
  unfold cell
  split
  · rename_i c hc
    refine iff_of_false (by simp) fun ⟨h⟩ => ?_
    cases hc.symm.trans (hnone.2 h)
  · rename_i hc
    rw [ht, Topology.cellCount_ofMesh]
    refine ⟨fun h => ?_, fun ⟨_⟩ => rfl⟩
    cases h
    exact .outside (hnone.1 hc)

theorem groupCell_of_group {ig : Nat} {g : ElementGroup} (hg : x.mesh.groups[ig]? = some g) :
    x.groupCell (ig, i) =
      if 0 ≤ i ∧ i < g.cellCount then .ok ⟨ig, i.toNat⟩
      else .error (.invalidCellIndex i g.cellCount) := by
  have hgroup : x.topology.group? ig = some (.ofGroup ig g (x.mesh.firstCell ig)) := by
    rw [ht, Topology.group?_ofMesh, hg]
    rfl
  unfold groupCell
  simp only [Int.natCast_nonneg, if_true, Int.toNat_natCast, hgroup]
  rfl

theorem groupCell_of_no_group {ig : Int} (hig : ¬ (0 ≤ ig ∧ ig < x.mesh.groupCount)) :
    x.groupCell (ig, i) = .error (.invalidGroupIndex ig x.mesh.groupCount) := by
  have hnone : (if 0 ≤ ig then x.topology.group? ig.toNat else none) = none := by
    split
    · have hout : x.mesh.groups.length ≤ ig.toNat := by
        unfold Mesh.groupCount at hig
        omega
      rw [ht, Topology.group?_ofMesh, List.getElem?_eq_none hout]
      rfl
    · rfl
  unfold groupCell
  simp only [hnone]
  rw [ht, Topology.groupCount_ofMesh]

theorem groupCell_eq_ok_iff : x.groupCell p = .ok c ↔ x.mesh.DenotesPair p c := by
  obtain ⟨ig, i⟩ := p
  rcases x.mesh.group_cases ig with ⟨n, g, rfl, hg⟩ | hig
  · rw [groupCell_of_group ht hg]
    constructor
    · intro h
      split at h
      · rename_i hi
        cases h
        have hlt : i.toNat < g.cellCount := by omega
        exact ⟨⟨g, hg, hlt⟩, Prod.ext rfl (Int.toNat_of_nonneg hi.1).symm⟩
      · cases h
    · rintro ⟨⟨g', hg', hlt⟩, hp⟩
      obtain ⟨hn, rfl⟩ := Prod.mk.inj hp
      obtain rfl := Int.ofNat_inj.1 hn
      cases hg.symm.trans hg'
      rw [if_pos (by omega), Int.toNat_natCast]
  · rw [groupCell_of_no_group ht hig]
    refine iff_of_false (by simp) ?_
    rintro ⟨⟨g, hg, -⟩, hp⟩
    have hlt : c.group < x.mesh.groups.length := (List.getElem?_eq_some_iff.1 hg).1
    obtain ⟨rfl, -⟩ := Prod.mk.inj hp
    exact hig ⟨Int.natCast_nonneg _, Int.ofNat_lt.2 hlt⟩

theorem groupCell_eq_error_iff : x.groupCell p = .error e ↔ x.mesh.PairFault p e := by
  obtain ⟨ig, i⟩ := p
  constructor
  · intro h
    rcases x.mesh.group_cases ig with ⟨n, g, rfl, hg⟩ | hig
    · rw [groupCell_of_group ht hg] at h
      split at h
      · cases h
      · rename_i hi
        cases h
        exact .cell hg hi
    · rw [groupCell_of_no_group ht hig] at h
      cases h
      exact .group hig
  · rintro (hig | ⟨hg, hi⟩)
    · exact groupCell_of_no_group ht hig
    · rw [groupCell_of_group ht hg, if_neg hi]

end

/-! ## Lists -/

/-- A list of entries is read into a region of kind `k`. -/
structure Reads {α β : Type} (t : Topology) (k : Kind) (fault : α → RegionError → Prop)
    (denotes : α → β → Prop) (holds : Region → β → Prop) (l : List α)
    (result : Except RegionError Region) : Prop where
  fails : ∀ l₁ a l₂ e, l = l₁ ++ a :: l₂ → (∀ b ∈ l₁, ∀ e', ¬ fault b e') → fault a e →
    result = .error e
  selects : (∀ a ∈ l, ∀ e, ¬ fault a e) → (∀ a ∈ l, ∃! b, denotes a b) ∧
    ∃ r, result = .ok r ∧ r.Settled t ∧ r.kind = k ∧ ∀ b, holds r b ↔ ∃ a ∈ l, denotes a b

theorem reads_mapM {α β : Type} {t : Topology} {k : Kind} {fault : α → RegionError → Prop}
    {denotes : α → β → Prop} {holds : Region → β → Prop} {l : List α}
    {f : α → Except RegionError β} {make : List β → Except RegionError Region}
    (hok : ∀ {a b}, f a = .ok b ↔ denotes a b) (herror : ∀ {a e}, f a = .error e ↔ fault a e)
    (hmake : ∀ bs, (∀ b ∈ bs, ∃ a, denotes a b) →
      ∃ r, make bs = .ok r ∧ r.Settled t ∧ r.kind = k ∧ ∀ b, holds r b ↔ b ∈ bs) :
    Reads t k fault denotes holds l (l.mapM f >>= make) := by
  have hread {a : α} (h : ∀ e, ¬ fault a e) : ∃ b, f a = .ok b := by
    cases hf : f a with
    | ok b => exact ⟨b, rfl⟩
    | error e => exact absurd (herror.1 hf) (h e)
  refine ⟨fun l₁ a l₂ e hl hpre ha => ?_, fun hl => ⟨fun a ha => ?_, ?_⟩⟩
  · rw [hl, mapM_eq_error (fun b hb => hread (hpre b hb)) (herror.2 ha)]
    rfl
  · obtain ⟨b, hb⟩ := hread (hl a ha)
    refine ⟨b, hok.1 hb, fun c hc => ?_⟩
    cases hb.symm.trans (hok.2 hc)
    rfl
  · obtain ⟨bs, hbs⟩ := exists_mapM fun a ha => hread (hl a ha)
    have hmem {b : β} : b ∈ bs ↔ ∃ a ∈ l, denotes a b := by
      constructor
      · intro hb
        obtain ⟨a, ha, hab⟩ := exists_ok_of_mapM hbs hb
        exact ⟨a, ha, hok.1 hab⟩
      · rintro ⟨a, ha, hab⟩
        exact mem_of_mapM hbs ha (hok.2 hab)
    obtain ⟨r, hr, hsettled, hkind, hholds⟩ := hmake bs fun b hb =>
      (hmem.1 hb).imp fun a ha => ha.2
    rw [hbs]
    exact ⟨r, hr, hsettled, hkind, fun b => (hholds b).trans hmem⟩

variable (x) in
/-- The vertices that a leaf lists, by their numbers. -/
inductive ListsVertices : Leaf → List Int → Prop where
  | vertices (is : List Int) : ListsVertices (.vertices is) is
  | verticesInList (is : List Int) : ListsVertices (.verticesInList is) is
  | verticesOfSet {n : String} {vs : List Nat} : x.mesh.vertexSets.get? n = some vs →
      ListsVertices (.verticesOfSet n) (vs.map Int.ofNat)
  | verticesBy {f : String} {choose : Chooser} : x.functions.get? f = some choose →
      ListsVertices (.verticesBy f) ((choose x.mesh.coors x.mesh).map Int.ofNat)

variable (x) in
/-- The cells that a leaf lists, by their numbers in the mesh. -/
inductive ListsCells : Leaf → List Int → Prop where
  | cells (is : List Int) : ListsCells (.cells is) is
  | cellsOfSet {n : String} {cs : List Nat} : x.mesh.cellSets.get? n = some cs →
      ListsCells (.cellsOfSet n) (cs.map Int.ofNat)
  | cellsBy {f : String} {choose : Chooser} : x.functions.get? f = some choose →
      ListsCells (.cellsBy f) ((choose x.mesh.centroids x.mesh).map Int.ofNat)

variable {l : Leaf} {is : List Int}

theorem find_of_get? {f : String} {choose : Chooser} (h : x.functions.get? f = some choose) :
    x.functions.find f = .ok choose := by
  unfold Functions.find
  rw [h]

theorem ListsVertices.evalLeaf_eq (h : x.ListsVertices l is) :
    x.evalLeaf l =
      is.mapM x.vertex >>= fun vs => x.made l .vertex { vertices := .ofList vs } := by
  have hread {l : Leaf} {is : List Int} :
      (do x.made l .vertex { vertices := ← x.vertices is }) =
        is.mapM x.vertex >>= fun vs => x.made l .vertex { vertices := .ofList vs } := by
    unfold Context.vertices
    cases is.mapM x.vertex <;> rfl
  cases h with
  | vertices is | verticesInList is => exact hread
  | verticesOfSet hn =>
    rw [evalLeaf, hn]
    exact hread
  | verticesBy hf =>
    rw [evalLeaf, find_of_get? hf]
    exact hread

theorem ListsCells.evalLeaf_eq (h : x.ListsCells l is) :
    x.evalLeaf l = is.mapM x.cell >>= fun cs => x.made l .cell { cells := .ofList cs } := by
  have hread {l : Leaf} {is : List Int} :
      (do x.made l .cell { cells := ← x.cells is }) =
        is.mapM x.cell >>= fun cs => x.made l .cell { cells := .ofList cs } := by
    unfold Context.cells
    cases is.mapM x.cell <;> rfl
  cases h with
  | cells is => exact hread
  | cellsOfSet hn =>
    rw [evalLeaf, hn]
    exact hread
  | cellsBy hf =>
    rw [evalLeaf, find_of_get? hf]
    exact hread

section

variable (ht : x.topology = .ofMesh x.mesh)
include ht

theorem exists_made_vertices {vs : List Nat} (h : ∀ v ∈ vs, v < x.mesh.vertexCount) :
    ∃ r, x.made l .vertex { vertices := .ofList vs } = .ok r ∧ r.Settled x.topology ∧
      r.kind = .vertex ∧ ∀ v, v ∈ r.vertices ↔ v ∈ vs := by
  have hvalid : x.topology.error? .vertex { vertices := .ofList vs } = none := by
    rw [Topology.error?_vertex_eq_none_iff, ht]
    exact fun v hv => h v (SortedSet.mem_ofList.1 hv)
  obtain ⟨r, hr, hsettled, hkind, hextent⟩ := exists_made hvalid
  refine ⟨r, hr, hsettled, hkind, fun v => ?_⟩
  rw [Region.vertices, hextent]
  exact SortedSet.mem_ofList

theorem exists_made_cells {cs : List Entity} (h : ∀ c ∈ cs, x.mesh.HasCell c) :
    ∃ r, x.made l .cell { cells := .ofList cs } = .ok r ∧ r.Settled x.topology ∧
      r.kind = .cell ∧ ∀ c, c ∈ r.cells ↔ c ∈ cs := by
  have hvalid : x.topology.error? .cell { cells := .ofList cs } = none := by
    rw [Topology.error?_eq_none_iff (by decide), ht]
    exact fun c hc => (h c (SortedSet.mem_ofList.1 hc)).has
  obtain ⟨r, hr, hsettled, hkind, hextent⟩ := exists_made hvalid
  refine ⟨r, hr, hsettled, hkind, fun c => ?_⟩
  rw [Region.cells, hextent]
  exact SortedSet.mem_ofList

theorem reads_vertices (h : x.ListsVertices l is) :
    Reads x.topology .vertex x.mesh.VertexFault x.mesh.DenotesVertex
      (fun r v => v ∈ r.vertices) is (x.evalLeaf l) := by
  rw [h.evalLeaf_eq]
  refine reads_mapM vertex_eq_ok_iff vertex_eq_error_iff fun vs hvs => ?_
  refine exists_made_vertices ht fun v hv => ?_
  obtain ⟨-, -, hlt⟩ := hvs v hv
  exact hlt

theorem reads_cells (h : x.ListsCells l is) :
    Reads x.topology .cell x.mesh.CellFault x.mesh.DenotesCell
      (fun r c => c ∈ r.cells) is (x.evalLeaf l) := by
  rw [h.evalLeaf_eq]
  refine reads_mapM cell_eq_ok_iff (cell_eq_error_iff ht) fun cs hcs => ?_
  refine exists_made_cells ht fun c hc => ?_
  obtain ⟨-, hcell, -⟩ := hcs c hc
  exact hcell

theorem reads_groupCells (ps : List (Int × Int)) :
    Reads x.topology .cell x.mesh.PairFault x.mesh.DenotesPair
      (fun r c => c ∈ r.cells) ps (x.evalLeaf (.groupCells ps)) := by
  have hread : x.evalLeaf (.groupCells ps) = ps.mapM x.groupCell >>= fun cs =>
      x.made (.groupCells ps) .cell { cells := .ofList cs } := rfl
  rw [hread]
  refine reads_mapM (groupCell_eq_ok_iff ht) (groupCell_eq_error_iff ht) fun cs hcs => ?_
  refine exists_made_cells ht fun c hc => ?_
  obtain ⟨-, hcell, -⟩ := hcs c hc
  exact hcell

end

variable (x) in
/-- How the leaves that list indices are read. -/
structure ReadsIndices : Prop where
  vertices : ∀ l is, x.ListsVertices l is → Reads x.topology .vertex x.mesh.VertexFault
    x.mesh.DenotesVertex (fun r v => v ∈ r.vertices) is (x.evalLeaf l)
  cells : ∀ l is, x.ListsCells l is → Reads x.topology .cell x.mesh.CellFault
    x.mesh.DenotesCell (fun r c => c ∈ r.cells) is (x.evalLeaf l)
  groupCells : ∀ ps, Reads x.topology .cell x.mesh.PairFault
    x.mesh.DenotesPair (fun r c => c ∈ r.cells) ps (x.evalLeaf (.groupCells ps))

/-- Next to the topology of its mesh no leaf drops, clamps or misplaces an index: the first one
outside the mesh or its group is reported, and if there is none the region, which is complete,
is made of what the indices denote. -/
theorem evalLeaf_readsIndices (ht : x.topology = .ofMesh x.mesh) : x.ReadsIndices where
  vertices _ _ h := reads_vertices ht h
  cells _ _ h := reads_cells ht h
  groupCells ps := reads_groupCells ht ps

/-- Two squares, a group without cells and a line: of the numbers 0 to 2 the last is the line. -/
theorem evalLeaf_readsIndices_square :
    let m := ((Mesh.unitSquare 2 1).pushGroup ⟨7, .triangle, []⟩).pushGroup ⟨5, .line, [0, 1]⟩
    let x : Context := ⟨m, .ofMesh m, .empty, .empty⟩
    x.evalLeaf (.vertices [5, -1, 6]) = .error (.invalidVertexIndex (-1) 6) ∧
      x.evalLeaf (.groupCells [(2, 0), (1, 0), (3, 0)]) = .error (.invalidCellIndex 0 0) ∧
      ∃ r, x.evalLeaf (.cells [2, 0, 2]) = .ok r ∧ r.Settled x.topology ∧ r.kind = .cell ∧
        r.cells.toList = [⟨0, 0⟩, ⟨2, 0⟩] := by
  intro m x
  have hreads : x.ReadsIndices := evalLeaf_readsIndices rfl
  refine ⟨?_, ?_, ?_⟩
  · refine (hreads.vertices _ _ (.vertices _)).fails [5] (-1) [6] _ rfl ?_ (.outside (by decide))
    rintro i hi e ⟨hout⟩
    obtain rfl := List.mem_singleton.1 hi
    exact hout (by decide +kernel)
  · have hgroup : x.mesh.groups[1]? = some ⟨7, .triangle, []⟩ := rfl
    refine (hreads.groupCells _).fails [(2, 0)] (1, 0) [(3, 0)] _ rfl ?_
      (.cell hgroup (by decide))
    intro p hp e hfault
    obtain rfl := List.mem_singleton.1 hp
    exact nomatch (groupCell_eq_error_iff rfl).2 hfault
  · obtain ⟨r, hr, hcells⟩ : ∃ r, x.evalLeaf (.cells [2, 0, 2]) = .ok r ∧
        r.cells.toList = [⟨0, 0⟩, ⟨2, 0⟩] := exists_ok_of_toOption (by decide +kernel)
    have hin : ∀ i ∈ [2, 0, 2], ∀ e, ¬ x.mesh.CellFault i e := by
      rintro i hi e ⟨hout⟩
      exact hout ((by decide +kernel : ∀ i ∈ [2, 0, 2], 0 ≤ i ∧ i < (x.mesh.cellCount : Int)) i hi)
    obtain ⟨-, r', hr', hsettled, hkind, -⟩ := (hreads.cells _ _ (.cells _)).selects hin
    cases hr.symm.trans hr'
    exact ⟨r, hr, hsettled, hkind, hcells⟩

end Context

end Subdomain

import Subdomain.Proofs.Topology.Surface

/-!
# Ownership

A table lists a cell as an owner of an entity once for every local entity of the cell that
has its vertices (`count_ownersOf`). The local entities of a cell that repeats no vertex have
different vertices (`nodup_localKeys`), and then owners count cells. A cell may repeat a
vertex, though, and two of its local entities fall into one: the cell owns that twice, and
a facet that only it has is not on the surface (`ownership`).
-/

namespace Subdomain

/-- The vertices of the local entities of a kind, in their order. -/
def Element.localKeys (e : Element) (k : Kind) (cell : List Nat) : List (List Nat) :=
  (e.positions k).map (EntityTable.key cell)

/-! ## Cells that repeat no vertex -/

/-- No two local entities are at the same positions, in whatever order. -/
theorem Element.pairwise_positions (e : Element) (k : Kind) :
    (e.positions k).Pairwise fun ps qs => ¬ ps.Perm qs := by
  cases e <;> cases k <;> decide

namespace EntityTable

variable {cell ps qs : List Nat}

/-- The positions are told by the vertices there, which are different. -/
theorem map_idxOf_filterMap (hcell : cell.Nodup) (hps : ∀ p ∈ ps, p < cell.length) :
    (ps.filterMap (cell[·]?)).map cell.idxOf = ps := by
  induction ps with
  | nil => rfl
  | cons p ps ih =>
    obtain ⟨hp, hrest⟩ := List.forall_mem_cons.1 hps
    rw [List.filterMap_cons, List.getElem?_eq_getElem hp, List.map_cons, ih hrest,
      hcell.idxOf_getElem]

theorem perm_of_key_eq (hcell : cell.Nodup) (hps : ∀ p ∈ ps, p < cell.length)
    (hqs : ∀ q ∈ qs, q < cell.length) (h : key cell ps = key cell qs) : ps.Perm qs := by
  have hperm : (ps.filterMap (cell[·]?)).Perm (qs.filterMap (cell[·]?)) :=
    ((perm_ascending _).symm.trans (.of_eq h)).trans (perm_ascending _)
  have hmap := hperm.map cell.idxOf
  rwa [map_idxOf_filterMap hcell hps, map_idxOf_filterMap hcell hqs] at hmap

end EntityTable

theorem Element.nodup_localKeys {e : Element} {cell : List Nat}
    (hl : cell.length = e.vertexCount) (hcell : cell.Nodup) (k : Kind) :
    (e.localKeys k cell).Nodup := by
  have hlt : ∀ ps ∈ e.positions k, ∀ p ∈ ps, p < cell.length := by
    rw [hl]
    exact positions_lt
  refine List.pairwise_map.2 ((e.pairwise_positions k).imp_of_mem fun hps hqs hne heq => ?_)
  exact hne (EntityTable.perm_of_key_eq hcell (hlt _ hps) (hlt _ hqs) heq)

/-! ## Owners -/

namespace EntityTable.Lists

variable {positions cells : List (List Nat)} {t : EntityTable} {id : Nat} {vs : List Nat}

/-- A cell owns an entity as often as one of its local entities has its vertices. -/
theorem count_ownersOf (h : Lists positions cells t) (hvs : t.vertices? id = some vs) {c : Nat}
    {cell : List Nat} (hcell : cells[c]? = some cell) :
    (t.ownersOf id).count c = (positions.map (key cell)).count vs := by
  have hsame : ∀ i ∈ t.ofCell c, (i == id) = (t.vertices? i == some vs) := by
    intro i hi
    have hlt : i < t.entities.length := h.lt_of_mem_ofCell hi
    have hiff : t.entities[i]? = t.entities[id]? ↔ i = id := List.getElem?_inj hlt h.nodup
    rw [Bool.eq_iff_iff, beq_iff_eq, beq_iff_eq, ← hiff, ← hvs]
    rfl
  calc (t.ownersOf id).count c = (t.ofCell c).count id := h.count id c
    _ = (t.ofCell c).countP (t.vertices? · == some vs) := List.countP_congr fun i hi => by
      rw [hsame i hi]
    _ = ((t.ofCell c).map t.vertices?).count (some vs) := by
      rw [List.count_eq_countP, List.countP_map]
      rfl
    _ = (positions.map (key cell)).count vs := by
      rw [h.ofCell c cell hcell]
      simp [List.count_eq_countP, List.countP_map, Function.comp_def]

theorem mem_ownersOf_iff_mem_keys (h : Lists positions cells t) (hvs : t.vertices? id = some vs)
    {c : Nat} : c ∈ t.ownersOf id ↔
      ∃ cell, cells[c]? = some cell ∧ vs ∈ positions.map (key cell) := by
  rw [h.mem_ownersOf_iff, h.mem_ofCell_iff, hvs]
  simp only [List.mem_map, Option.some.injEq, eq_comm]

theorem exists_vertices? (h : Lists positions cells t) {c : Nat} {cell : List Nat}
    (hcell : cells[c]? = some cell) (hvs : vs ∈ positions.map (key cell)) :
    ∃ id, t.vertices? id = some vs := by
  obtain ⟨ps, hps, rfl⟩ := List.mem_map.1 hvs
  have hmem : some (key cell ps) ∈ (t.ofCell c).map t.vertices? :=
    h.ofCell c cell hcell ▸ List.mem_map.2 ⟨ps, hps, rfl⟩
  obtain ⟨id, -, hid⟩ := List.mem_map.1 hmem
  exact ⟨id, hid⟩

/-- Owners are listed once each if no cell has the entity at two places. -/
theorem nodup_ownersOf_iff (h : Lists positions cells t) (hvs : t.vertices? id = some vs) :
    (t.ownersOf id).Nodup ↔
      ∀ cell ∈ cells, (positions.map (key cell)).count vs ≤ 1 := by
  rw [List.nodup_iff_count]
  constructor
  · intro hle cell hmem
    obtain ⟨c, hc⟩ := List.mem_iff_getElem?.1 hmem
    exact h.count_ownersOf hvs hc ▸ hle c
  · intro hle c
    by_cases hc : c ∈ t.ownersOf id
    · obtain ⟨cell, hcell, -⟩ := (h.mem_ownersOf_iff_mem_keys hvs).1 hc
      rw [h.count_ownersOf hvs hcell]
      exact hle cell (List.mem_of_getElem? hcell)
    · rw [List.count_eq_zero_of_not_mem hc]
      exact Nat.zero_le 1

end EntityTable.Lists

/-! ## Facets of one cell -/

namespace Mesh

variable {m : Mesh} {vs : List Nat} {ig c : Nat} {g : ElementGroup} {cell : List Nat} {dim : Nat}

/-- A cell of a group has a facet with the vertices `vs`. -/
def HasFacet (m : Mesh) (vs : List Nat) : Nat × Nat → Prop
  | (ig, c) => ∃ g cell, m.groups[ig]? = some g ∧ g.cells[c]? = some cell ∧
    vs ∈ g.element.localKeys .facet cell

/-- No cell has two local entities of a kind with the same vertices. -/
def Unfolded (m : Mesh) : Prop :=
  ∀ g ∈ m.groups, ∀ cell ∈ g.cells, ∀ k, (g.element.localKeys k cell).Nodup

theorem unfolded_of_nodup (h : ∀ g ∈ m.groups, ∀ cell ∈ g.cells, cell.Nodup) : m.Unfolded :=
  fun g hg cell hcell => Element.nodup_localKeys (ElementGroup.length_of_mem_cells hcell)
    (h g hg cell hcell)

theorem facetAt_iff {j : Nat} : m.FacetAt dim vs (ig, c, j) ↔
    ∃ g cell, m.groups[ig]? = some g ∧ g.element.dim = dim ∧ g.cells[c]? = some cell ∧
      (g.element.localKeys .facet cell)[j]? = some vs := by
  simp only [FacetAt, Element.localKeys, List.getElem?_map, Option.map_eq_some_iff]
  constructor
  · rintro ⟨g, cell, ps, hg, hdim, hcell, hps, hkey⟩
    exact ⟨g, cell, hg, hdim, hcell, ps, hps, hkey⟩
  · rintro ⟨g, cell, hg, hdim, hcell, ps, hps, hkey⟩
    exact ⟨g, cell, ps, hg, hdim, hcell, hps, hkey⟩

theorem FacetAt.hasFacet {j : Nat} (h : m.FacetAt dim vs (ig, c, j)) : m.HasFacet vs (ig, c) := by
  obtain ⟨g, cell, hg, -, hcell, hj⟩ := facetAt_iff.1 h
  exact ⟨g, cell, hg, hcell, List.mem_of_getElem? hj⟩

/-- The places of a facet that only one cell has are those in that cell. -/
theorem existsUnique_facetAt_iff (hg : m.groups[ig]? = some g) (hcell : g.cells[c]? = some cell)
    (hdim : g.element.dim = dim) (honly : ∀ p, m.HasFacet vs p → p = (ig, c)) :
    (∃! p, m.FacetAt dim vs p) ↔ (g.element.localKeys .facet cell).count vs = 1 := by
  have hplace {j : Nat} :
      m.FacetAt dim vs (ig, c, j) ↔ (g.element.localKeys .facet cell)[j]? = some vs := by
    rw [facetAt_iff]
    constructor
    · rintro ⟨g', cell', hg', -, hcell', hj⟩
      cases hg.symm.trans hg'
      cases hcell.symm.trans hcell'
      exact hj
    · exact fun hj => ⟨g, cell, hg, hdim, hcell, hj⟩
  rw [(Tallies.count _ vs).one]
  constructor
  · rintro ⟨⟨ig', c', j⟩, hp, huniq⟩
    cases honly _ hp.hasFacet
    refine ⟨j, hplace.1 hp, fun i hi => ?_⟩
    exact congrArg (·.2.2) (huniq (ig, c, i) (hplace.2 hi))
  · rintro ⟨j, hj, huniq⟩
    refine ⟨(ig, c, j), hplace.2 hj, ?_⟩
    rintro ⟨ig', c', i⟩ hp
    cases honly _ hp.hasFacet
    rw [huniq i (hplace.1 hp)]

end Mesh

namespace Topology

variable {m : Mesh} {ig f : Nat} {g : GroupTopology} {ids vs : List Nat}

theorem mem_surface_iff (hg : (ofMesh m).group? ig = some g)
    (hids : (ofMesh m).surface[ig]? = some ids) (hdim : g.element.dim = (ofMesh m).topDim)
    (hvs : g.facets.vertices? f = some vs) :
    f ∈ ids ↔ ∃! p, m.FacetAt (ofMesh m).topDim vs p := by
  have hgroup : (ofMesh m).groups[ig]? = some g := hg
  have honce : ids = onceUsed (ofMesh m).groups (ofMesh m).topDim g := by
    change ((ofMesh m).groups.map _)[ig]? = some ids at hids
    rw [List.getElem?_map, hgroup] at hids
    exact (Option.some.inj hids).symm
  have hlt : f < g.facets.size := (List.getElem?_eq_some_iff.1 hvs).1
  rw [honce, onceUsed, if_pos hdim, List.mem_filter, List.mem_range, and_iff_right hlt,
    decide_eq_true_eq, hvs]
  exact (tallies_facetUses _ vs).one

/-- A facet that only one cell of the whole mesh has is on the surface just if the cell is listed
once as its owner. -/
theorem mem_surface_iff_nodup (hg : (ofMesh m).group? ig = some g)
    (hids : (ofMesh m).surface[ig]? = some ids) (hdim : g.element.dim = (ofMesh m).topDim)
    (hvs : g.facets.vertices? f = some vs) (hone : ∃! p, m.HasFacet vs p) :
    f ∈ ids ↔ (g.facets.ownersOf f).Nodup := by
  obtain ⟨e, offset, he, rfl⟩ := exists_group_of_group? hg
  have hlists : EntityTable.Lists e.element.facets e.cells
    (GroupTopology.ofGroup ig e offset).facets := EntityTable.lists_ofCells _ _
  -- the one cell is the owner of the facet in its group
  obtain ⟨c, cell, hcell, hmem, -⟩ := hlists.exists_cell hvs
  obtain ⟨cell', hcell', hkey⟩ :=
    (hlists.mem_ownersOf_iff_mem_keys hvs).1 (hlists.mem_ownersOf_iff.2 hmem)
  cases hcell.symm.trans hcell'
  have honly : ∀ p, m.HasFacet vs p → p = (ig, c) := fun p hp =>
    hone.unique hp ⟨e, cell, he, hcell, hkey⟩
  rw [mem_surface_iff hg hids hdim hvs, Mesh.existsUnique_facetAt_iff he hcell hdim honly,
    hlists.nodup_ownersOf_iff hvs]
  have hpos : 0 < (e.element.localKeys .facet cell).count vs := List.count_pos_iff.2 hkey
  constructor
  · intro hcount other hother
    obtain ⟨c', hc'⟩ := List.mem_iff_getElem?.1 hother
    by_cases hin : vs ∈ e.element.localKeys .facet other
    · cases honly (ig, c') ⟨e, other, he, hc', hin⟩
      cases hcell.symm.trans hc'
      exact Nat.le_of_eq hcount
    · have hzero : (e.element.localKeys .facet other).count vs = 0 :=
        List.count_eq_zero_of_not_mem hin
      exact Nat.le_trans (Nat.le_of_eq hzero) (Nat.zero_le 1)
  · intro hle
    have := hle cell (List.mem_of_getElem? hcell)
    exact Nat.le_antisymm this hpos

end Topology

/-! ## Owners of a mesh -/

namespace Mesh

open Subdomain.Topology

variable {m : Mesh}

/-- Owners and surface count cells: an entity lists every cell that contains it once, and a facet
of a cell of the highest dimension that no other cell of the mesh has is on the surface. -/
structure CountsCells (m : Mesh) : Prop where
  owners : ∀ ig g k t, (ofMesh m).group? ig = some g → g.table? k = some t →
    ∀ id vs, t.vertices? id = some vs → (t.ownersOf id).Nodup ∧
      ∀ c, c ∈ t.ownersOf id ↔ ∃ cell, g.cells[c]? = some cell ∧ vs ∈ g.element.localKeys k cell
  surface : ∀ ig g ids f vs, (ofMesh m).group? ig = some g →
    (ofMesh m).surface[ig]? = some ids → g.element.dim = (ofMesh m).topDim →
      g.facets.vertices? f = some vs → (∃! p, m.HasFacet vs p) → f ∈ ids

theorem Unfolded.countsCells (h : m.Unfolded) : m.CountsCells := by
  have howners {ig k id vs g t} (hg : (ofMesh m).group? ig = some g) (ht : g.table? k = some t)
      (hvs : t.vertices? id = some vs) : (t.ownersOf id).Nodup := by
    obtain ⟨e, offset, he, rfl⟩ := exists_group_of_group? hg
    refine ((GroupTopology.lists_of_table? ht).nodup_ownersOf_iff hvs).2 fun cell hcell => ?_
    exact List.nodup_iff_count.1 (h e (List.mem_of_getElem? he) cell hcell k) vs
  constructor
  · intro ig g k t hg ht id vs hvs
    refine ⟨howners hg ht hvs, fun c => ?_⟩
    obtain ⟨e, offset, -, rfl⟩ := exists_group_of_group? hg
    exact (GroupTopology.lists_of_table? ht).mem_ownersOf_iff_mem_keys hvs
  · intro ig g ids f vs hg hids hdim hvs hone
    exact (mem_surface_iff_nodup hg hids hdim hvs hone).2 (howners (k := .facet) hg rfl hvs)

theorem CountsCells.unfolded (h : m.CountsCells) : m.Unfolded := by
  intro e he cell hcell k
  obtain ⟨ig, hig⟩ := List.mem_iff_getElem?.1 he
  obtain ⟨offset, hg⟩ := exists_group?_of_group hig
  cases ht : (GroupTopology.ofGroup ig e offset).table? k with
  | none =>
    -- vertices and cells are not local entities
    rcases GroupTopology.table?_eq_none_iff.1 ht with rfl | rfl <;> exact .nil
  | some t =>
    have hlists := GroupTopology.lists_of_table? ht
    refine List.nodup_iff_count.2 fun vs => ?_
    by_cases hvs : vs ∈ e.element.localKeys k cell
    · obtain ⟨c, hc⟩ := List.mem_iff_getElem?.1 hcell
      obtain ⟨id, hid⟩ := hlists.exists_vertices? hc hvs
      exact (hlists.nodup_ownersOf_iff hid).1 (h.owners ig _ k t hg ht id vs hid).1 cell hcell
    · rw [List.count_eq_zero_of_not_mem hvs]
      exact Nat.zero_le 1

/-- A cell is listed as an owner once for every local entity with the vertices, so a facet that only
one cell has can be missing from the surface. Owners and surface count cells just if no cell has two
local entities with the same vertices, and so if no cell repeats a vertex. -/
theorem ownership (m : Mesh) :
    (∀ ig g k t, (ofMesh m).group? ig = some g → g.table? k = some t →
      ∀ id vs, t.vertices? id = some vs → ∀ c cell, g.cells[c]? = some cell →
        (t.ownersOf id).count c = (g.element.localKeys k cell).count vs) ∧
    (∀ ig g ids f vs, (ofMesh m).group? ig = some g → (ofMesh m).surface[ig]? = some ids →
      g.element.dim = (ofMesh m).topDim → g.facets.vertices? f = some vs →
        (∃! p, m.HasFacet vs p) → (f ∈ ids ↔ (g.facets.ownersOf f).Nodup)) ∧
    (m.CountsCells ↔ m.Unfolded) ∧
    ((∀ g ∈ m.groups, ∀ cell ∈ g.cells, cell.Nodup) → m.CountsCells) := by
  refine ⟨fun ig g k t hg ht id vs hvs c cell hcell => ?_,
    fun ig g ids f vs => mem_surface_iff_nodup, ⟨CountsCells.unfolded, Unfolded.countsCells⟩,
    fun h => (unfolded_of_nodup h).countsCells⟩
  obtain ⟨e, offset, -, rfl⟩ := exists_group_of_group? hg
  exact (GroupTopology.lists_of_table? ht).count_ownersOf hvs hcell

/-- A hexahedron pressed flat onto a square: its bottom is its top, which no other cell has. -/
theorem flat_ownedTwice :
    let m := Mesh.ofGrid "flat" 3 .hexahedron [⟨0, 0, 0⟩, ⟨1, 0, 0⟩, ⟨1, 1, 0⟩, ⟨0, 1, 0⟩]
      [[0, 1, 2, 3, 0, 1, 2, 3]]
    m.Built ∧ ¬ m.CountsCells ∧ ∃ g ids, (ofMesh m).group? 0 = some g ∧
      (ofMesh m).surface[0]? = some ids ∧ g.element.dim = (ofMesh m).topDim ∧
      g.facets.vertices? 0 = some [0, 1, 2, 3] ∧ g.facets.ownersOf 0 = [0, 0] ∧
      (∃! p, m.HasFacet [0, 1, 2, 3] p) ∧ 0 ∉ ids := by
  intro m
  have hbuilt : m.Built := built_ofGrid (by decide) (by decide) (by decide)
  obtain ⟨g, hg⟩ : ∃ g, (ofMesh m).group? 0 = some g := ⟨_, rfl⟩
  obtain ⟨ids, hids⟩ : ∃ ids, (ofMesh m).surface[0]? = some ids := ⟨_, rfl⟩
  have hvs : g.facets.vertices? 0 = some [0, 1, 2, 3] := by
    cases hg
    decide +kernel
  have howned : g.facets.ownersOf 0 = [0, 0] := by
    cases hg
    decide +kernel
  have hdim : g.element.dim = (ofMesh m).topDim := by
    cases hg
    decide +kernel
  have hone : ∃! p, m.HasFacet [0, 1, 2, 3] p := by
    refine ⟨(0, 0), ⟨_, _, rfl, rfl, by decide +kernel⟩, ?_⟩
    rintro ⟨ig, c⟩ ⟨e, cell, he, hcell, -⟩
    have hig : ig = 0 := Nat.lt_one_iff.1 (List.getElem?_eq_some_iff.1 he).1
    cases hig
    cases he
    have hc : c = 0 := Nat.lt_one_iff.1 (List.getElem?_eq_some_iff.1 hcell).1
    rw [hc]
  have hmissing : 0 ∉ ids := by
    rw [mem_surface_iff_nodup hg hids hdim hvs hone, howned]
    decide
  exact ⟨hbuilt, fun h => hmissing (h.surface 0 g ids 0 _ hg hids hdim hvs hone),
    g, ids, hg, hids, hdim, hvs, howned, hone, hmissing⟩

end Mesh

end Subdomain

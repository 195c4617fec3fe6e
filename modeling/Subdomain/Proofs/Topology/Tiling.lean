import Mathlib.Data.List.Nodup
import Mathlib.Data.List.Sort
import Subdomain.Proofs.Mesh.Lattice
import Subdomain.Proofs.Topology.CellNumbers
import Subdomain.Proofs.Topology.Ownership

/-!
# Tilings

A mesh tiles a lattice if its cells are the boxes of one span, each with its corners in the same
order. Then the local entities of a cell are the boxes of certain spans that lie in it
(`Tile.mem_localKeys`), so that the tables of the mesh list the boxes of these spans, each once
(`Tile.perm_entities`). The surface has the boxes that lie at an end of the lattice in the
direction that they leave out (`Tile.perm_surface`).
-/

namespace Subdomain

theorem ascending_eq {l l' : List Nat} (h : l.Perm l') (hl' : l'.Pairwise (· < ·)) :
    ascending l = l' :=
  ((perm_ascending l).trans h).eq_of_pairwise (fun _ _ _ _ => Nat.le_antisymm)
    (pairwise_ascending l) (hl'.imp Nat.le_of_lt)

theorem pieces_flatten {α : Type} {n : Nat} {ls : List (List α)} (h : ∀ l ∈ ls, l.length = n) :
    pieces n ls.length ls.flatten = ls := by
  induction ls with
  | nil => rfl
  | cons l ls ih =>
    obtain ⟨hl, hls⟩ := List.forall_mem_cons.1 h
    rw [List.length_cons, pieces, List.flatten_cons, List.take_left' hl, List.drop_left' hl, ih hls]

/-- The only index of an item of a list without repeats. -/
theorem existsUnique_getElem?_iff {α : Type} {l : List α} (hl : l.Nodup) {P : α → Prop} :
    (∃! i : Nat, ∃ a, l[i]? = some a ∧ P a) ↔ ∃! a, a ∈ l ∧ P a := by
  constructor
  · rintro ⟨i, ⟨a, hi, ha⟩, huniq⟩
    refine ⟨a, ⟨List.mem_of_getElem? hi, ha⟩, ?_⟩
    rintro b ⟨hb, hPb⟩
    obtain ⟨j, hj⟩ := List.mem_iff_getElem?.1 hb
    cases huniq j ⟨b, hj, hPb⟩
    exact Option.some.inj (hj.symm.trans hi)
  · rintro ⟨a, ⟨ha, hPa⟩, huniq⟩
    obtain ⟨i, hi⟩ := List.mem_iff_getElem?.1 ha
    refine ⟨i, ⟨a, hi, hPa⟩, ?_⟩
    rintro j ⟨b, hj, hPb⟩
    cases huniq b ⟨List.mem_of_getElem? hj, hPb⟩
    exact (List.getElem?_inj (List.getElem?_eq_some_iff.1 hj).1 hl).1 (hj.trans hi.symm)

theorem existsUnique_pair_iff {Q : Nat × Nat → Prop} {P : Nat → Prop}
    (h : ∀ ig i, Q (ig, i) ↔ ig = 0 ∧ P i) : (∃! p, Q p) ↔ ∃! i, P i := by
  constructor
  · rintro ⟨⟨ig, i⟩, hi, huniq⟩
    refine ⟨i, ((h ig i).1 hi).2, fun j hj => ?_⟩
    exact congrArg Prod.snd (huniq (0, j) ((h 0 j).2 ⟨rfl, hj⟩))
  · rintro ⟨i, hi, huniq⟩
    refine ⟨(0, i), (h 0 i).2 ⟨rfl, hi⟩, ?_⟩
    rintro ⟨jg, j⟩ hQ
    obtain ⟨rfl, hj⟩ := (h jg j).1 hQ
    rw [huniq j hj]

/-! ## Facets of one cell -/

namespace Mesh

variable {m : Mesh} {vs : List Nat} {dim : Nat}

theorem hasFacet_iff_exists_facetAt (hdim : ∀ g ∈ m.groups, g.element.dim = dim) {ig c : Nat} :
    m.HasFacet vs (ig, c) ↔ ∃ j, m.FacetAt dim vs (ig, c, j) := by
  constructor
  · rintro ⟨g, cell, hg, hcell, hvs⟩
    obtain ⟨j, hj⟩ := List.mem_iff_getElem?.1 hvs
    exact ⟨j, facetAt_iff.2 ⟨g, cell, hg, hdim g (List.mem_of_getElem? hg), hcell, hj⟩⟩
  · rintro ⟨j, hj⟩
    exact hj.hasFacet

theorem Unfolded.place_unique (h : m.Unfolded) {ig c i j : Nat}
    (hi : m.FacetAt dim vs (ig, c, i)) (hj : m.FacetAt dim vs (ig, c, j)) : i = j := by
  obtain ⟨g, cell, hg, -, hcell, hi⟩ := facetAt_iff.1 hi
  obtain ⟨g', cell', hg', -, hcell', hj⟩ := facetAt_iff.1 hj
  cases hg.symm.trans hg'
  cases hcell.symm.trans hcell'
  have hnodup := h g (List.mem_of_getElem? hg) cell (List.mem_of_getElem? hcell) .facet
  exact (List.getElem?_inj (List.getElem?_eq_some_iff.1 hi).1 hnodup).1 (hi.trans hj.symm)

/-- In a mesh of one dimension whose cells have no facet twice, the places of a facet are its
cells. -/
theorem Unfolded.existsUnique_facetAt_iff (h : m.Unfolded)
    (hdim : ∀ g ∈ m.groups, g.element.dim = dim) :
    (∃! p, m.FacetAt dim vs p) ↔ ∃! p, m.HasFacet vs p := by
  constructor
  · rintro ⟨⟨ig, c, j⟩, hp, huniq⟩
    refine ⟨(ig, c), hp.hasFacet, ?_⟩
    rintro ⟨ig', c'⟩ hp'
    obtain ⟨j', hj'⟩ := (hasFacet_iff_exists_facetAt hdim).1 hp'
    cases huniq (ig', c', j') hj'
    rfl
  · rintro ⟨⟨ig, c⟩, hp, huniq⟩
    obtain ⟨j, hj⟩ := (hasFacet_iff_exists_facetAt hdim).1 hp
    refine ⟨(ig, c, j), hj, ?_⟩
    rintro ⟨ig', c', j'⟩ hj'
    cases huniq (ig', c') hj'.hasFacet
    rw [h.place_unique hj hj']

end Mesh

namespace Topology

variable {groups : List GroupTopology} {g : GroupTopology} {dim : Nat}

theorem nodup_onceUsed : (onceUsed groups dim g).Nodup := by
  unfold onceUsed
  split
  · exact List.nodup_range.filter _
  · exact .nil

theorem exists_vertices_of_onceUsed {f : Nat} (hf : f ∈ onceUsed groups dim g) :
    ∃ vs, g.facets.vertices? f = some vs := by
  unfold onceUsed at hf
  split at hf
  · exact ⟨_, List.getElem?_eq_getElem (List.mem_range.1 (List.mem_filter.1 hf).1)⟩
  · cases hf

end Topology

/-! ## Tiles -/

/-- How cells of one element fill a lattice. A cell is a box of the span `span`, with its corners in
local order at `corners` from its first site. Its local entities of a kind are the boxes in it whose
spans are the `parts`. -/
structure Tile where
  element : Element
  span : Site
  corners : List Site
  parts : Kind → List Site
  length_corners : corners.length = element.vertexCount
  nodup_corners : corners.Nodup
  corners_le : ∀ d ∈ corners, d ≤ span
  nodup_parts : ∀ k, (parts k).Nodup
  parts_le : ∀ k, ∀ s ∈ parts k, s ≤ span
  exists_part : ∀ k, ∀ ps ∈ element.positions k, ∃ s ∈ parts k, ∃ d ∈ span.places s,
    (ps.filterMap (corners[·]?)).Perm ((s.places 0).map (d + ·))
  exists_positions : ∀ k, ∀ s ∈ parts k, ∀ d ∈ span.places s, ∃ ps ∈ element.positions k,
    (ps.filterMap (corners[·]?)).Perm ((s.places 0).map (d + ·))

namespace Tile

open Site

/-- Quadrilaterals along `x` and `y`. -/
def square : Tile where
  element := .quadrilateral
  span := ⟨1, 1, 0⟩
  corners := [⟨0, 0, 0⟩, ⟨1, 0, 0⟩, ⟨1, 1, 0⟩, ⟨0, 1, 0⟩]
  parts
    | .edge | .facet => [⟨1, 0, 0⟩, ⟨0, 1, 0⟩]
    | .vertex | .face | .cell => []
  length_corners := rfl
  nodup_corners := by decide
  corners_le := by decide
  nodup_parts k := by cases k <;> decide
  parts_le k := by cases k <;> decide
  exists_part k := by cases k <;> decide
  exists_positions k := by cases k <;> decide

def cube : Tile where
  element := .hexahedron
  span := ⟨1, 1, 1⟩
  corners := [⟨0, 0, 0⟩, ⟨1, 0, 0⟩, ⟨1, 1, 0⟩, ⟨0, 1, 0⟩,
    ⟨0, 0, 1⟩, ⟨1, 0, 1⟩, ⟨1, 1, 1⟩, ⟨0, 1, 1⟩]
  parts
    | .edge => [⟨1, 0, 0⟩, ⟨0, 1, 0⟩, ⟨0, 0, 1⟩]
    | .face | .facet => [⟨1, 1, 0⟩, ⟨1, 0, 1⟩, ⟨0, 1, 1⟩]
    | .vertex | .cell => []
  length_corners := rfl
  nodup_corners := by decide
  corners_le := by decide
  nodup_parts k := by cases k <;> decide
  parts_le k := by cases k <;> decide
  exists_part k := by cases k <;> decide
  exists_positions k := by cases k <;> decide

/-! ## Cells -/

variable {t : Tile} {g c q s : Site} {k : Kind} {vs ps : List Nat}

/-- The corners of the cell whose first site is `c`. -/
def cell (t : Tile) (g c : Site) : List Nat := t.corners.map fun d => g.number (c + d)

/-- The group of all cells that fit the lattice up to `g`. -/
def group (t : Tile) (g : Site) : ElementGroup :=
  ⟨1, t.element, ((g.places t.span).map (t.cell g)).flatten⟩

theorem length_cell : (t.cell g c).length = t.element.vertexCount := by
  rw [cell, List.length_map, t.length_corners]

theorem cells_group : (t.group g).cells = (g.places t.span).map (t.cell g) := by
  have hlength : ∀ cell ∈ (g.places t.span).map (t.cell g),
      cell.length = t.element.vertexCount := by
    intro cell hcell
    obtain ⟨c, -, rfl⟩ := List.mem_map.1 hcell
    exact length_cell
  have hcount : (t.group g).cellCount = ((g.places t.span).map (t.cell g)).length := by
    show ((g.places t.span).map (t.cell g)).flatten.length / t.element.vertexCount = _
    rw [List.length_flatten, List.map_congr_left hlength, List.map_const', List.sum_replicate_nat]
    exact Nat.mul_div_cancel _ t.element.vertexCount_pos
  rw [ElementGroup.cells, hcount]
  exact pieces_flatten hlength

theorem nodup_cell (hc : c + t.span ≤ g) : (t.cell g c).Nodup := by
  have hfits : ∀ d ∈ t.corners, c + d ≤ g := fun d hd =>
    le_trans (c.add_le_add_iff_left.2 (t.corners_le d hd)) hc
  refine t.nodup_corners.map_on fun d hd d' hd' heq => ?_
  exact c.add_left_cancel (number_inj (hfits d hd) (hfits d' hd') heq)

theorem nodup_of_mem_cells {cell : List Nat} (hcell : cell ∈ (t.group g).cells) : cell.Nodup := by
  rw [cells_group] at hcell
  obtain ⟨c, hc, rfl⟩ := List.mem_map.1 hcell
  exact nodup_cell (mem_places.1 hc)

theorem key_cell {d : Site} (hc : c + t.span ≤ g) (hd : d + s ≤ t.span)
    (hps : (ps.filterMap (t.corners[·]?)).Perm ((s.places 0).map (d + ·))) :
    EntityTable.key (t.cell g c) ps = g.box (c + d) s := by
  have hcorners : ps.filterMap ((t.cell g c)[·]?) =
      (ps.filterMap (t.corners[·]?)).map fun e => g.number (c + e) := by
    rw [List.map_filterMap]
    simp only [cell, List.getElem?_map]
  have hbox : ((s.places 0).map (d + ·)).map (fun e => g.number (c + e)) = g.box (c + d) s := by
    rw [box, List.map_map]
    exact List.map_congr_left fun e _ => congrArg g.number (c.add_assoc d e).symm
  have hfits : c + d + s ≤ g := by
    rw [c.add_assoc]
    exact le_trans (c.add_le_add_iff_left.2 hd) hc
  exact ascending_eq (hcorners ▸ hbox ▸ hps.map _) (pairwise_box hfits)

theorem mem_localKeys (hc : c + t.span ≤ g) :
    vs ∈ t.element.localKeys k (t.cell g c) ↔
      ∃ s ∈ t.parts k, ∃ q, c ≤ q ∧ q + s ≤ c + t.span ∧ vs = g.box q s := by
  rw [Element.localKeys, List.mem_map]
  constructor
  · rintro ⟨ps, hps, rfl⟩
    obtain ⟨s, hs, d, hd, hperm⟩ := t.exists_part k ps hps
    have hds := mem_places.1 hd
    refine ⟨s, hs, c + d, c.le_add_right d, ?_, key_cell hc hds hperm⟩
    rw [c.add_assoc]
    exact c.add_le_add_iff_left.2 hds
  · rintro ⟨s, hs, q, hcq, hqs, rfl⟩
    obtain ⟨d, rfl⟩ := exists_add_of_le hcq
    rw [c.add_assoc, c.add_le_add_iff_left] at hqs
    obtain ⟨ps, hps, hperm⟩ := t.exists_positions k s hs d (mem_places.2 hqs)
    exact ⟨ps, hps, key_cell hc hqs hperm⟩

/-! ## Tables -/

variable (h : Paves t.span g)
include h

theorem mem_entities :
    vs ∈ (EntityTable.ofCells (t.element.positions k) (t.group g).cells).entities ↔
      ∃ s ∈ t.parts k, ∃ q, q + s ≤ g ∧ vs = g.box q s := by
  rw [EntityTable.entities_ofCells, List.mem_eraseDups, List.mem_flatMap, cells_group]
  constructor
  · rintro ⟨_, hcell, hvs⟩
    obtain ⟨c, hc, rfl⟩ := List.mem_map.1 hcell
    have hc := mem_places.1 hc
    obtain ⟨s, hs, q, hcq, hqs, rfl⟩ := (mem_localKeys hc).1 hvs
    exact ⟨s, hs, q, (h.exists_cell (t.parts_le k s hs)).1 ⟨c, hc, hcq, hqs⟩, rfl⟩
  · rintro ⟨s, hs, q, hq, rfl⟩
    obtain ⟨c, hc, hcq, hqs⟩ := (h.exists_cell (t.parts_le k s hs)).2 hq
    refine ⟨_, List.mem_map.2 ⟨c, mem_places.2 hc, rfl⟩, ?_⟩
    exact (mem_localKeys hc).2 ⟨s, hs, q, hcq, hqs, rfl⟩

/-- The table of a kind lists the boxes of its spans. -/
theorem perm_entities :
    (EntityTable.ofCells (t.element.positions k) (t.group g).cells).entities.Perm
      (g.boxes (t.parts k) g.places) := by
  have hboxes : (g.boxes (t.parts k) g.places).Nodup :=
    nodup_boxes (t.nodup_parts k) g.nodup_places fun _ _ => mem_places.1
  refine (List.perm_ext_iff_of_nodup (EntityTable.lists_ofCells _ _).nodup hboxes).2 fun vs => ?_
  simp only [mem_entities h, mem_boxes, mem_places]

/-! ## The surface -/

omit h in
theorem unfolded {m : Mesh} (hm : m.groups = [t.group g]) : m.Unfolded := by
  refine Mesh.unfolded_of_nodup fun e he cell hcell => ?_
  rw [hm, List.mem_singleton] at he
  exact nodup_of_mem_cells (he ▸ hcell)

omit h in
theorem hasFacet_iff {m : Mesh} (hm : m.groups = [t.group g]) {ig i : Nat} :
    m.HasFacet vs (ig, i) ↔ ig = 0 ∧ ∃ c, (g.places t.span)[i]? = some c ∧
      vs ∈ t.element.localKeys .facet (t.cell g c) := by
  constructor
  · rintro ⟨e, cell, he, hcell, hvs⟩
    rw [hm, List.getElem?_singleton] at he
    split at he
    · cases he
      rw [cells_group, List.getElem?_map] at hcell
      obtain ⟨c, hc, rfl⟩ := Option.map_eq_some_iff.1 hcell
      exact ⟨‹_›, c, hc, hvs⟩
    · cases he
  · rintro ⟨hig, c, hc, hvs⟩
    cases hig
    refine ⟨t.group g, t.cell g c, hm ▸ rfl, ?_, hvs⟩
    rw [cells_group, List.getElem?_map, hc]
    rfl

omit h in
theorem box_mem_localKeys (hs : s ∈ t.parts k) (hq : q + s ≤ g) (hc : c + t.span ≤ g) :
    g.box q s ∈ t.element.localKeys k (t.cell g c) ↔ c ≤ q ∧ q + s ≤ c + t.span := by
  rw [mem_localKeys hc]
  constructor
  · rintro ⟨s', -, q', hcq, hqs, heq⟩
    obtain ⟨rfl, rfl⟩ := box_inj hq (le_trans hqs hc) heq
    exact ⟨hcq, hqs⟩
  · rintro ⟨hcq, hqs⟩
    exact ⟨s, hs, q, hcq, hqs, rfl⟩

theorem existsUnique_hasFacet_iff {m : Mesh} (hm : m.groups = [t.group g])
    (hs : s ∈ t.parts .facet) (hq : q + s ≤ g) :
    (∃! p, m.HasFacet (g.box q s) p) ↔ q ∈ g.rim t.span s := by
  calc (∃! p, m.HasFacet (g.box q s) p)
    _ ↔ ∃! i : Nat, ∃ c, (g.places t.span)[i]? = some c ∧
          g.box q s ∈ t.element.localKeys .facet (t.cell g c) :=
      existsUnique_pair_iff fun _ _ => hasFacet_iff hm
    _ ↔ ∃! c, c ∈ g.places t.span ∧ g.box q s ∈ t.element.localKeys .facet (t.cell g c) :=
      existsUnique_getElem?_iff (g.nodup_places t.span)
    _ ↔ ∃! c, c + t.span ≤ g ∧ c ≤ q ∧ q + s ≤ c + t.span := existsUnique_congr fun c => by
      rw [mem_places]
      exact and_congr_right (box_mem_localKeys hs hq)
    _ ↔ q ∈ g.rim t.span s := h.existsUnique_cell (t.parts_le _ s hs)

/-- The topology of the one group. -/
def groupTopology (t : Tile) (g : Site) : GroupTopology := .ofGroup 0 (t.group g) 0

section Mesh

open Subdomain.Topology

variable {m : Mesh} (hm : m.groups = [t.group g])
include hm

omit h in
theorem groups_eq : (ofMesh m).groups = [t.groupTopology g] := by
  rw [groups_ofMesh, hm]
  rfl

omit h in
theorem topDim_eq : (ofMesh m).topDim = t.element.dim := by
  show ((ofMesh m).groups.map (·.element.dim)).foldl max 0 = _
  rw [groups_eq hm]
  exact Nat.zero_max _

omit h in
theorem exists_surface : ∃ ids, (ofMesh m).surface = [ids] ∧ ids.Nodup ∧
    ∀ f ∈ ids, ∃ vs, (t.groupTopology g).facets.vertices? f = some vs := by
  refine ⟨onceUsed (ofMesh m).groups (ofMesh m).topDim (t.groupTopology g), ?_, nodup_onceUsed,
    fun _ => exists_vertices_of_onceUsed⟩
  show (ofMesh m).groups.map (onceUsed (ofMesh m).groups (ofMesh m).topDim) = _
  rw [groups_eq hm, List.map_singleton]

omit h in
theorem mem_surface_iff_hasFacet {ids : List Nat} (hids : (ofMesh m).surface = [ids]) {f : Nat}
    (hvs : (t.groupTopology g).facets.vertices? f = some vs) :
    f ∈ ids ↔ ∃! p, m.HasFacet vs p := by
  have hgroup : (ofMesh m).group? 0 = some (t.groupTopology g) := by
    rw [group?, groups_eq hm]
    rfl
  have hdim : ∀ e ∈ m.groups, e.element.dim = (ofMesh m).topDim := by
    intro e he
    rw [hm, List.mem_singleton] at he
    rw [topDim_eq hm, he]
    rfl
  rw [mem_surface_iff hgroup (hids ▸ rfl) (topDim_eq hm).symm hvs]
  exact (unfolded hm).existsUnique_facetAt_iff hdim

/-- The surface lists the facets at the ends of the lattice. -/
theorem perm_surface {ids : List Nat} (hids : (ofMesh m).surface = [ids]) (hdistinct : ids.Nodup) :
    (ids.filterMap (t.groupTopology g).facets.vertices?).Perm
      (g.boxes (t.parts .facet) (g.rim t.span)) := by
  have htable : (t.groupTopology g).facets.entities.Nodup :=
    (EntityTable.lists_ofCells _ _).nodup
  have hnodup : (ids.filterMap (t.groupTopology g).facets.vertices?).Nodup := by
    refine hdistinct.filterMap fun i j vs hi hj => ?_
    exact (List.getElem?_inj (List.getElem?_eq_some_iff.1 hi).1 htable).1 (hi.trans hj.symm)
  have hboxes : (g.boxes (t.parts .facet) (g.rim t.span)).Nodup :=
    nodup_boxes (t.nodup_parts _) (fun _ => h.nodup_rim) fun _ _ hq => (h.mem_rim.1 hq).1
  refine (List.perm_ext_iff_of_nodup hnodup hboxes).2 fun vs => ?_
  rw [List.mem_filterMap, mem_boxes]
  constructor
  · rintro ⟨f, hf, hvs⟩
    obtain ⟨s, hs, q, hq, rfl⟩ := (mem_entities (k := .facet) h).1 (List.mem_of_getElem? hvs)
    have hone := (mem_surface_iff_hasFacet hm hids hvs).1 hf
    exact ⟨s, hs, q, (existsUnique_hasFacet_iff h hm hs hq).1 hone, rfl⟩
  · rintro ⟨s, hs, q, hq, rfl⟩
    have hfits := (h.mem_rim.1 hq).1
    obtain ⟨f, hf⟩ :=
      List.mem_iff_getElem?.1 ((mem_entities (k := .facet) h).2 ⟨s, hs, q, hfits, rfl⟩)
    have hone := (existsUnique_hasFacet_iff h hm hs hfits).2 hq
    exact ⟨f, (mem_surface_iff_hasFacet hm hids hf).2 hone, hf⟩

end Mesh

end Tile

end Subdomain

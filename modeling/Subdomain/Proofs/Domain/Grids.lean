import Mathlib.Tactic.Ring
import Subdomain.Proofs.Domain.EmptyGroups
import Subdomain.Proofs.Topology.Tiling

/-!
# Grids

The unit square and the unit cube tile a lattice. So their edges and facets are counted by the
places of boxes, and their surface is the sides of the lattice (`Tile.outline`). For columns, rows
and layers of cells the numbers and the vertices are those of a grid (`grid_outlines`).
-/

namespace Subdomain

open Site Subdomain.Topology

/-- The outline of a mesh of one group. A cell has `corners` vertices, all different. There are
`edges` edges, `facets` facets and, on the surface, `sides` facets, whose vertices make up a `Side`.
A selection of the surface gives the vertices on the `Rim`. -/
structure Mesh.Outline (m : Mesh) (corners edges facets sides : Nat) (Side : List Nat → Prop)
    (Rim : Nat → Prop) : Prop where
  cells : ∀ g ∈ m.groups, ∀ cell ∈ g.cells,
    cell.length = corners ∧ cell.Nodup ∧ ∀ v ∈ cell, v < m.vertexCount
  surface : ∃ g ids, (ofMesh m).groups = [g] ∧ (ofMesh m).surface = [ids] ∧
    g.edges.size = edges ∧ g.facets.size = facets ∧ ids.Nodup ∧ ids.length = sides ∧
    ∀ vs, (∃ f ∈ ids, g.facets.vertices? f = some vs) ↔ Side vs
  selected : ∃ p, Selection.parse "vertices of surface".toList = .ok p ∧
    ∀ c fs, ∃ r, (m.context c fs).run p = .ok r ∧ ∀ v, v ∈ r.vertices ↔ Rim v

theorem Mesh.Outline.congr {m : Mesh} {corners edges facets sides edges' facets' sides' : Nat}
    {Side Side' : List Nat → Prop} {Rim Rim' : Nat → Prop}
    (h : m.Outline corners edges facets sides Side Rim) (hedges : edges = edges')
    (hfacets : facets = facets') (hsides : sides = sides') (hSide : ∀ vs, Side vs ↔ Side' vs)
    (hRim : ∀ v, Rim v ↔ Rim' v) : m.Outline corners edges' facets' sides' Side' Rim' := by
  obtain rfl : Side = Side' := funext fun vs => propext (hSide vs)
  obtain rfl : Rim = Rim' := funext fun v => propext (hRim v)
  rwa [← hedges, ← hfacets, ← hsides]

/-! ## The vertices of the surface -/

theorem Context.vertices_surface {m : Mesh} {g : ElementGroup} {ids : List Nat}
    (hm : m.groups = [g]) (hids : (ofMesh m).surface = [ids]) (c : Collection) (fs : Functions) :
    ∃ r, (m.context c fs).run [.push .surface] = .ok r ∧ ∀ v, v ∈ r.vertices ↔
      ∃ f ∈ ids, ∃ vs, (g.items .facet)[f]? = some vs ∧ v ∈ vs := by
  have htop : 0 < (ofMesh m).topDim :=
    Nat.pos_of_ne_zero (mt topDim_eq_zero_iff.1 (hm ▸ List.cons_ne_nil g []))
  obtain ⟨r, hr, hsettled, hkind, hfacets⟩ := exists_surface (x := m.context c fs) rfl htop
  have hitems (f : Nat) : m.vertices? .facet ⟨0, f⟩ = (g.items .facet)[f]? := by
    rw [Mesh.vertices?, hm]
    rfl
  refine ⟨r, run_push.trans hr, fun v => ?_⟩
  rw [Region.vertices, (hsettled.derivesFacets hkind).vertices, ← Region.entities, hfacets]
  constructor
  · rintro ⟨⟨ig, f⟩, he, vs, hvs, hv⟩
    obtain ⟨ids', hig, hf⟩ := mem_surface.1 he
    change (ofMesh m).surface[ig]? = some ids' at hig
    rw [hids, List.getElem?_singleton] at hig
    split at hig
    · rename_i hzero
      cases hzero
      cases hig
      exact ⟨f, hf, vs, hitems f ▸ hvs, hv⟩
    · cases hig
  · rintro ⟨f, hf, vs, hvs, hv⟩
    refine ⟨⟨0, f⟩, mem_surface.2 ⟨ids, ?_, hf⟩, vs, hitems f ▸ hvs, hv⟩
    show (ofMesh m).surface[0]? = some ids
    rw [hids]
    rfl

/-! ## Tilings -/

namespace Tile

variable {t : Tile} {g : Site} {m : Mesh} (h : Paves t.span g) (hm : m.groups = [t.group g])
include h

theorem size_entities {k : Kind} :
    (EntityTable.ofCells (t.element.positions k) (t.group g).cells).size =
      total ((t.parts k).map fun s => (g.places s).length) :=
  (perm_entities h).length_eq.trans length_boxes

/-- The vertices of the boxes on the rim are the sites at the ends of the lattice. -/
theorem exists_mem_rim {v : Nat} :
    (∃ vs ∈ g.boxes (t.parts .facet) (g.rim t.span), v ∈ vs) ↔
      ∃ p, p ≤ g ∧ (∃ s ∈ t.parts .facet, g.AtEnds t.span s p) ∧ v = g.number p := by
  constructor
  · rintro ⟨vs, hvs, hv⟩
    obtain ⟨s, hs, q, hq, rfl⟩ := mem_boxes.1 hvs
    obtain ⟨p, hqp, hps, rfl⟩ := mem_box.1 hv
    obtain ⟨hp, hends⟩ := (h.exists_rim (t.parts_le _ s hs)).1 ⟨q, hq, hqp, hps⟩
    exact ⟨p, hp, ⟨s, hs, hends⟩, rfl⟩
  · rintro ⟨p, hp, ⟨s, hs, hends⟩, rfl⟩
    obtain ⟨q, hq, hqp, hps⟩ := (h.exists_rim (t.parts_le _ s hs)).2 ⟨hp, hends⟩
    exact ⟨_, mem_boxes.2 ⟨s, hs, q, hq, rfl⟩, mem_box.2 ⟨p, hqp, hps, rfl⟩⟩

include hm

theorem outline (hvalid : m.Valid) : m.Outline t.element.vertexCount
    (total ((t.parts .edge).map fun s => (g.places s).length))
    (total ((t.parts .facet).map fun s => (g.places s).length))
    (total ((t.parts .facet).map fun s => (g.rim t.span s).length))
    (fun vs => vs ∈ g.boxes (t.parts .facet) (g.rim t.span))
    (fun v => ∃ p, p ≤ g ∧ (∃ s ∈ t.parts .facet, g.AtEnds t.span s p) ∧ v = g.number p) := by
  obtain ⟨ids, hids, hdistinct, hlisted⟩ := exists_surface hm
  have hperm := perm_surface h hm hids hdistinct
  have hside {vs : List Nat} : (∃ f ∈ ids, (t.groupTopology g).facets.vertices? f = some vs) ↔
      vs ∈ g.boxes (t.parts .facet) (g.rim t.span) := by
    rw [← hperm.mem_iff, List.mem_filterMap]
  refine ⟨fun e he cell hcell => ?_, ⟨_, ids, groups_eq hm, hids, size_entities (k := .edge) h,
    size_entities (k := .facet) h, hdistinct, ?_, fun vs => hside⟩, _, Domain.parse_surface,
    fun c fs => ?_⟩
  · have hinRange := hvalid.inRange e he
    rw [hm, List.mem_singleton] at he
    subst he
    exact ⟨ElementGroup.length_of_mem_cells hcell, nodup_of_mem_cells hcell, fun v hv =>
      hinRange v (ElementGroup.mem_conn_of_mem_cells hcell hv)⟩
  · rw [← length_boxes, ← hperm.length_eq]
    refine (List.filterMap_length_eq_length.2 fun f hf => ?_).symm
    exact Option.isSome_iff_exists.2 (hlisted f hf)
  · obtain ⟨r, hr, hvertices⟩ := Context.vertices_surface hm hids c fs
    refine ⟨r, hr, fun v => ?_⟩
    have hitems : (t.groupTopology g).items .facet = (t.group g).items .facet :=
      GroupTopology.items_ofGroup
    rw [hvertices, ← exists_mem_rim h, ← hitems]
    constructor
    · rintro ⟨f, hf, vs, hvs, hv⟩
      exact ⟨vs, hside.1 ⟨f, hf, hvs⟩, hv⟩
    · rintro ⟨vs, hvs, hv⟩
      obtain ⟨f, hf, hvs⟩ := hside.2 hvs
      exact ⟨f, hf, vs, hvs, hv⟩

end Tile

/-! ## The unit square -/

section Square

variable {nx ny : Nat}

theorem exists_facet_square {P : Site → Prop} :
    (∃ s ∈ Tile.square.parts .facet, P s) ↔ P ⟨1, 0, 0⟩ ∨ P ⟨0, 1, 0⟩ := by
  simp [Tile.square]

theorem box_along_x (i j : Nat) : (⟨nx, ny, 0⟩ : Site).box ⟨i, j, 0⟩ ⟨1, 0, 0⟩ =
    [j * (nx + 1) + i, j * (nx + 1) + (i + 1)] := by
  simp [box, places, map_sites, number, List.range_succ]

theorem box_along_y (i j : Nat) : (⟨nx, ny, 0⟩ : Site).box ⟨i, j, 0⟩ ⟨0, 1, 0⟩ =
    [j * (nx + 1) + i, (j + 1) * (nx + 1) + i] := by
  simp [box, places, map_sites, number, List.range_succ]

theorem mem_boxes_square {vs : List Nat} :
    vs ∈ (⟨nx, ny, 0⟩ : Site).boxes (Tile.square.parts .facet)
        ((⟨nx, ny, 0⟩ : Site).rim Tile.square.span) ↔
      ∃ i j, i < nx ∧ (j = 0 ∨ j = ny) ∧ vs = [j * (nx + 1) + i, j * (nx + 1) + (i + 1)] ∨
        (i = 0 ∨ i = nx) ∧ j < ny ∧ vs = [j * (nx + 1) + i, (j + 1) * (nx + 1) + i] := by
  rw [mem_boxes, exists_facet_square]
  simp only [rim, exists_mem_sites, exists_or]
  simp [Tile.square, ends, box_along_x, box_along_y]

theorem exists_atEnds_square {p : Site} :
    (∃ s ∈ Tile.square.parts .facet, (⟨nx, ny, 0⟩ : Site).AtEnds Tile.square.span s p) ↔
      p.x = 0 ∨ p.x = nx ∨ p.y = 0 ∨ p.y = ny := by
  rw [exists_facet_square, or_comm, ← or_assoc]
  simp [Tile.square, AtEnds]

theorem exists_end_square {v : Nat} :
    (∃ p, p ≤ ⟨nx, ny, 0⟩ ∧ (∃ s ∈ Tile.square.parts .facet,
        (⟨nx, ny, 0⟩ : Site).AtEnds Tile.square.span s p) ∧
        v = (⟨nx, ny, 0⟩ : Site).number p) ↔
      ∃ i j, i ≤ nx ∧ j ≤ ny ∧ (i = 0 ∨ i = nx ∨ j = 0 ∨ j = ny) ∧ v = j * (nx + 1) + i := by
  simp only [exists_atEnds_square]
  rw [exists_iff]
  simp [le_iff, number, and_assoc]

theorem length_places_square : total ((Tile.square.parts .edge).map fun s =>
    ((⟨nx, ny, 0⟩ : Site).places s).length) = nx * (ny + 1) + ny * (nx + 1) := by
  simp [Tile.square, length_places, Nat.mul_comm]

theorem length_rim_square : total ((Tile.square.parts .facet).map fun s =>
    ((⟨nx, ny, 0⟩ : Site).rim Tile.square.span s).length) = 2 * (nx + ny) := by
  simp [Tile.square, rim, length_sites, ends]
  omega

variable (hx : 1 ≤ nx) (hy : 1 ≤ ny)
include hx hy

theorem groups_unitSquare :
    (Mesh.unitSquare nx ny).groups = [Tile.square.group ⟨nx, ny, 0⟩] := by
  have hcell (i j : Nat) : Tile.square.cell ⟨nx, ny, 0⟩ ⟨i, j, 0⟩ = Mesh.squareCell nx i j := by
    simp [Tile.cell, Tile.square, Mesh.squareCell, number, Nat.add_assoc]
  have hplaces : (⟨nx, ny, 0⟩ : Site).places Tile.square.span =
      sites (List.range nx) (List.range ny) [0] := rfl
  unfold Mesh.unitSquare Tile.group
  rw [Nat.max_eq_left hx, Nat.max_eq_left hy, hplaces, map_sites, List.flatMap_singleton]
  simp only [hcell]
  rfl

theorem coors_unitSquare {i j : Nat} (hi : i ≤ nx) (hj : j ≤ ny) :
    (Mesh.unitSquare nx ny).coors[j * (nx + 1) + i]? =
      some ⟨Mesh.gridStep i nx, Mesh.gridStep j ny, 0⟩ := by
  have hsite := getElem?_number (g := ⟨nx, ny, 0⟩) (q := ⟨i, j, 0⟩) ⟨hi, hj, Nat.le_refl 0⟩
  have hcoors : (Mesh.unitSquare nx ny).coors = ((⟨nx, ny, 0⟩ : Site).places 0).map fun q =>
      ⟨Mesh.gridStep q.x nx, Mesh.gridStep q.y ny, 0⟩ := by
    unfold Mesh.unitSquare
    rw [Nat.max_eq_left hx, Nat.max_eq_left hy, places, map_sites]
    exact (List.flatMap_singleton ..).symm
  have hnumber : (⟨nx, ny, 0⟩ : Site).number ⟨i, j, 0⟩ = j * (nx + 1) + i := by
    rw [number, Nat.zero_mul, Nat.zero_add]
  rw [hcoors, List.getElem?_map, ← hnumber, hsite]
  rfl

end Square

/-! ## The unit cube -/

section Cube

variable {n : Nat}

theorem exists_facet_cube {P : Site → Prop} :
    (∃ s ∈ Tile.cube.parts .facet, P s) ↔ P ⟨1, 1, 0⟩ ∨ P ⟨1, 0, 1⟩ ∨ P ⟨0, 1, 1⟩ := by
  simp [Tile.cube]

theorem mem_boxes_cube {vs : List Nat} :
    vs ∈ (⟨n, n, n⟩ : Site).boxes (Tile.cube.parts .facet)
        ((⟨n, n, n⟩ : Site).rim Tile.cube.span) ↔
      ∃ i j e, i < n ∧ j < n ∧ (e = 0 ∨ e = n) ∧
        (vs = (⟨n, n, n⟩ : Site).box ⟨i, j, e⟩ ⟨1, 1, 0⟩ ∨
          vs = (⟨n, n, n⟩ : Site).box ⟨i, e, j⟩ ⟨1, 0, 1⟩ ∨
          vs = (⟨n, n, n⟩ : Site).box ⟨e, i, j⟩ ⟨0, 1, 1⟩) := by
  have hlong {i : Nat} : i ∈ ends n 1 1 ↔ i < n := List.mem_range
  have hshort {e : Nat} : e ∈ ends n 1 0 ↔ e = 0 ∨ e = n := List.mem_pair
  rw [mem_boxes, exists_facet_cube]
  simp only [rim, exists_mem_sites, Tile.cube, hlong, hshort]
  constructor
  · rintro (⟨i, hi, j, hj, e, he, rfl⟩ | ⟨i, hi, e, he, j, hj, rfl⟩ | ⟨e, he, i, hi, j, hj, rfl⟩)
    · exact ⟨i, j, e, hi, hj, he, .inl rfl⟩
    · exact ⟨i, j, e, hi, hj, he, .inr (.inl rfl)⟩
    · exact ⟨i, j, e, hi, hj, he, .inr (.inr rfl)⟩
  · rintro ⟨i, j, e, hi, hj, he, rfl | rfl | rfl⟩
    · exact .inl ⟨i, hi, j, hj, e, he, rfl⟩
    · exact .inr (.inl ⟨i, hi, e, he, j, hj, rfl⟩)
    · exact .inr (.inr ⟨e, he, i, hi, j, hj, rfl⟩)

theorem exists_atEnds_cube {p : Site} :
    (∃ s ∈ Tile.cube.parts .facet, (⟨n, n, n⟩ : Site).AtEnds Tile.cube.span s p) ↔
      p.x = 0 ∨ p.x = n ∨ p.y = 0 ∨ p.y = n ∨ p.z = 0 ∨ p.z = n := by
  rw [exists_facet_cube]
  simp [Tile.cube, AtEnds]
  omega

theorem exists_end_cube {v : Nat} :
    (∃ p, p ≤ ⟨n, n, n⟩ ∧ (∃ s ∈ Tile.cube.parts .facet,
        (⟨n, n, n⟩ : Site).AtEnds Tile.cube.span s p) ∧ v = (⟨n, n, n⟩ : Site).number p) ↔
      ∃ i j k, i ≤ n ∧ j ≤ n ∧ k ≤ n ∧
        (i = 0 ∨ i = n ∨ j = 0 ∨ j = n ∨ k = 0 ∨ k = n) ∧
        v = k * ((n + 1) * (n + 1)) + j * (n + 1) + i := by
  simp only [exists_atEnds_cube]
  rw [exists_iff]
  simp [le_iff, number, and_assoc]

theorem length_places_cube {k : Kind} : total ((Tile.cube.parts k).map fun s =>
    ((⟨n, n, n⟩ : Site).places s).length) =
      match k with
      | .edge => 3 * n * ((n + 1) * (n + 1))
      | .face | .facet => 3 * (n * n) * (n + 1)
      | .vertex | .cell => 0 := by
  cases k <;> simp [Tile.cube, length_places] <;> ring

theorem length_rim_cube : total ((Tile.cube.parts .facet).map fun s =>
    ((⟨n, n, n⟩ : Site).rim Tile.cube.span s).length) = 6 * (n * n) := by
  simp [Tile.cube, rim, length_sites, ends]
  ring

variable (hn : 1 ≤ n)
include hn

theorem groups_unitCube : (Mesh.unitCube n).groups = [Tile.cube.group ⟨n, n, n⟩] := by
  have hcell (i j k : Nat) : Tile.cube.cell ⟨n, n, n⟩ ⟨i, j, k⟩ = Mesh.cubeCell n i j k := rfl
  have hplaces : (⟨n, n, n⟩ : Site).places Tile.cube.span =
      sites (List.range n) (List.range n) (List.range n) := rfl
  unfold Mesh.unitCube Tile.group
  rw [Nat.max_eq_left hn, hplaces, map_sites]
  simp only [hcell]
  rfl

theorem coors_unitCube {i j k : Nat} (hi : i ≤ n) (hj : j ≤ n) (hk : k ≤ n) :
    (Mesh.unitCube n).coors[k * ((n + 1) * (n + 1)) + j * (n + 1) + i]? =
      some ⟨Mesh.gridStep i n, Mesh.gridStep j n, Mesh.gridStep k n⟩ := by
  have hsite := getElem?_number (g := ⟨n, n, n⟩) (q := ⟨i, j, k⟩) ⟨hi, hj, hk⟩
  have hcoors : (Mesh.unitCube n).coors = ((⟨n, n, n⟩ : Site).places 0).map fun q =>
      ⟨Mesh.gridStep q.x n, Mesh.gridStep q.y n, Mesh.gridStep q.z n⟩ := by
    unfold Mesh.unitCube
    rw [Nat.max_eq_left hn, places, map_sites]
    rfl
  rw [hcoors, List.getElem?_map]
  exact congrArg (Option.map _) hsite

end Cube

/-! ## Grids -/

/-- The vertices of the structured meshes are the corners of a grid, numbered along `x`, then `y`,
then `z`. Their cells have different vertices, their tables count the edges and facets of the
grid, and their surface is its sides, whose corners have an index that is the first or the last. -/
theorem grid_outlines :
    (∀ nx ny, 1 ≤ nx → 1 ≤ ny →
      let m := Mesh.unitSquare nx ny
      let corner := fun i j => j * (nx + 1) + i
      (∀ i j, i ≤ nx → j ≤ ny →
        m.coors[corner i j]? = some ⟨Mesh.gridStep i nx, Mesh.gridStep j ny, 0⟩) ∧
      m.Outline 4 (nx * (ny + 1) + ny * (nx + 1)) (nx * (ny + 1) + ny * (nx + 1)) (2 * (nx + ny))
        (fun vs => ∃ i j, i < nx ∧ (j = 0 ∨ j = ny) ∧ vs = [corner i j, corner (i + 1) j] ∨
          (i = 0 ∨ i = nx) ∧ j < ny ∧ vs = [corner i j, corner i (j + 1)])
        (fun v => ∃ i j, i ≤ nx ∧ j ≤ ny ∧ (i = 0 ∨ i = nx ∨ j = 0 ∨ j = ny) ∧
          v = corner i j)) ∧
    ∀ n, 1 ≤ n →
      let m := Mesh.unitCube n
      let corner := fun i j k => k * ((n + 1) * (n + 1)) + j * (n + 1) + i
      (∀ i j k, i ≤ n → j ≤ n → k ≤ n → m.coors[corner i j k]? =
        some ⟨Mesh.gridStep i n, Mesh.gridStep j n, Mesh.gridStep k n⟩) ∧
      m.Outline 8 (3 * n * ((n + 1) * (n + 1))) (3 * (n * n) * (n + 1)) (6 * (n * n))
        (fun vs => ∃ i j e, i < n ∧ j < n ∧ (e = 0 ∨ e = n) ∧
          (vs = [corner i j e, corner (i + 1) j e, corner i (j + 1) e, corner (i + 1) (j + 1) e] ∨
            vs = [corner i e j, corner (i + 1) e j, corner i e (j + 1), corner (i + 1) e (j + 1)] ∨
            vs = [corner e i j, corner e (i + 1) j, corner e i (j + 1), corner e (i + 1) (j + 1)]))
        (fun v => ∃ i j k, i ≤ n ∧ j ≤ n ∧ k ≤ n ∧
          (i = 0 ∨ i = n ∨ j = 0 ∨ j = n ∨ k = 0 ∨ k = n) ∧ v = corner i j k) := by
  constructor
  · intro nx ny hx hy m corner
    have hpaves : Paves Tile.square.span ⟨nx, ny, 0⟩ := ⟨by decide, hx, hy, Nat.le_refl 0⟩
    refine ⟨fun i j => coors_unitSquare hx hy, ?_⟩
    exact (Tile.outline hpaves (groups_unitSquare hx hy) (Mesh.built_unitSquare nx ny).valid).congr
      length_places_square length_places_square length_rim_square (fun _ => mem_boxes_square)
      fun _ => exists_end_square
  · intro n hn m corner
    have hpaves : Paves Tile.cube.span ⟨n, n, n⟩ := ⟨by decide, hn, hn, hn⟩
    refine ⟨fun i j k => coors_unitCube hn, ?_⟩
    exact (Tile.outline hpaves (groups_unitCube hn) (Mesh.built_unitCube n).valid).congr
      length_places_cube length_places_cube length_rim_cube (fun _ => mem_boxes_cube)
      fun _ => exists_end_cube

/-- Two squares side by side, and eight cubes in one. -/
theorem grid_outlines_small :
    (∃ g ids, (ofMesh (Mesh.unitSquare 2 1)).groups = [g] ∧
      (ofMesh (Mesh.unitSquare 2 1)).surface = [ids] ∧ g.edges.size = 7 ∧ ids.length = 6) ∧
    ∃ g ids, (ofMesh (Mesh.unitCube 2)).groups = [g] ∧
      (ofMesh (Mesh.unitCube 2)).surface = [ids] ∧ g.edges.size = 54 ∧ g.facets.size = 36 ∧
      ids.length = 24 := by
  obtain ⟨g, ids, hg, hids, hedges, -, -, hsides, -⟩ :=
    (grid_outlines.1 2 1 (by decide) (by decide)).2.surface
  obtain ⟨g', ids', hg', hids', hedges', hfacets', -, hsides', -⟩ :=
    (grid_outlines.2 2 (by decide)).2.surface
  exact ⟨⟨g, ids, hg, hids, hedges, hsides⟩, g', ids', hg', hids', hedges', hfacets', hsides'⟩

end Subdomain

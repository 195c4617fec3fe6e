import Subdomain.Proofs.Region.Conversion
import Subdomain.Proofs.Topology.Connectivity

/-!
# Derivation

`Mesh.Derives k x y` says by the connectivity of a mesh what follows from the set
of kind `k` of an extent `x`:

* from vertices, the entities all of whose vertices are in the set;
* from cells, their vertices and their local entities;
* from edges, faces or facets, their vertices, the cells that have one of them as a
  local entity, and the entities of the other two kinds all of whose vertices are
  among those vertices.

Completion on the topology of a mesh does just this, and fails just where the set
holds what the mesh does not have (`completed_derives`).
-/

namespace Subdomain

namespace Mesh

variable (m : Mesh)

def HasVertex (k : Kind) (e : Entity) (v : Nat) : Prop :=
  ∃ vs, m.vertices? k e = some vs ∧ v ∈ vs

/-- The entity has no vertex outside the set. -/
def Spanned (k : Kind) (vertices : IdSet) (e : Entity) : Prop :=
  ∃ vs, m.vertices? k e = some vs ∧ ∀ v ∈ vs, v ∈ vertices

/-- The mesh has all that is in the set of kind `k`. -/
def Holds (k : Kind) (x : Extent) : Prop :=
  match k with
  | .vertex => ∀ v ∈ x.vertices, v < m.vertexCount
  | k => ∀ e ∈ x.entities k, ∃ vs, m.vertices? k e = some vs

/-- What follows from a set of vertices. -/
structure DerivesVertices (x y : Extent) : Prop where
  vertices : y.vertices = x.vertices
  entities : ∀ k ≠ .vertex, ∀ e, e ∈ y.entities k ↔ m.Spanned k x.vertices e

/-- What follows from a set of cells. -/
structure DerivesCells (x y : Extent) : Prop where
  cells : y.cells = x.cells
  vertices : ∀ v, v ∈ y.vertices ↔ ∃ c ∈ x.cells, m.HasVertex .cell c v
  entities : ∀ k, k ≠ .vertex → k ≠ .cell →
    ∀ e, e ∈ y.entities k ↔ ∃ c ∈ x.cells, m.IsLocal k c e

/-- What follows from a set of edges, faces or facets. -/
structure DerivesSides (k : Kind) (x y : Extent) : Prop where
  sides : y.entities k = x.entities k
  vertices : ∀ v, v ∈ y.vertices ↔ ∃ e ∈ x.entities k, m.HasVertex k e v
  cells : ∀ c, c ∈ y.cells ↔ ∃ e ∈ x.entities k, m.IsLocal k c e
  others : ∀ k', k' ≠ .vertex → k' ≠ .cell → k' ≠ k →
    ∀ e, e ∈ y.entities k' ↔ m.Spanned k' y.vertices e

def Derives (k : Kind) (x y : Extent) : Prop :=
  match k with
  | .vertex => m.DerivesVertices x y
  | .cell => m.DerivesCells x y
  | k => m.DerivesSides k x y

variable {m}

/-- What a spanned entity is spanned by is used by its group. -/
theorem Spanned.exists_mem_conn {k : Kind} {vertices : IdSet} {e : Entity}
    (h : m.Spanned k vertices e) :
    ∃ g, m.groups[e.group]? = some g ∧ ∃ v ∈ vertices, v ∈ g.conn := by
  obtain ⟨vs, hvs, hin⟩ := h
  obtain ⟨g, hg, hitem⟩ := vertices?_eq_some_iff.1 hvs
  obtain ⟨hne, cell, hcell, hsub⟩ :=
    ElementGroup.exists_cell_of_mem_items (List.mem_of_getElem? hitem)
  obtain ⟨v, hv⟩ := List.exists_mem_of_ne_nil vs hne
  exact ⟨g, hg, v, hin v hv, ElementGroup.mem_conn_of_mem_cells hcell (hsub v hv)⟩

theorem not_spanned_empty {k : Kind} {e : Entity} : ¬ m.Spanned k ∅ e := by
  intro h
  obtain ⟨-, -, v, hv, -⟩ := h.exists_mem_conn
  exact SortedSet.not_mem_empty v hv

/-- The vertices of a set span every entity of the set. -/
theorem spanned_of_mem {k : Kind} {s : EntitySet} {vertices : IdSet}
    (hs : ∀ e ∈ s, ∃ vs, m.vertices? k e = some vs)
    (hv : ∀ v, v ∈ vertices ↔ ∃ e ∈ s, m.HasVertex k e v) {e : Entity} (he : e ∈ s) :
    m.Spanned k vertices e := by
  obtain ⟨vs, hvs⟩ := hs e he
  exact ⟨vs, hvs, fun v hmem => (hv v).2 ⟨e, he, vs, hvs, hmem⟩⟩

section Derives

variable {k k' : Kind} {x y : Extent} {e : Entity}

theorem DerivesVertices.spanned (h : m.DerivesVertices x y) (hk' : k' ≠ .vertex)
    (he : e ∈ y.entities k') : m.Spanned k' y.vertices e := by
  rw [h.vertices]
  exact (h.entities k' hk' e).1 he

theorem DerivesCells.exists_spanned (h : m.DerivesCells x y) (hx : m.Holds .cell x)
    (hk' : k' ≠ .vertex) (he : e ∈ y.entities k') :
    ∃ c, c.group = e.group ∧ m.Spanned .cell y.vertices c := by
  by_cases hc : k' = .cell
  · subst hc
    have hcell : e ∈ x.cells := h.cells ▸ he
    exact ⟨e, rfl, spanned_of_mem hx h.vertices hcell⟩
  · obtain ⟨c, hcell, hlocal⟩ := (h.entities k' hk' hc e).1 he
    exact ⟨c, hlocal.1, spanned_of_mem hx h.vertices hcell⟩

theorem DerivesSides.exists_spanned (h : m.DerivesSides k x y)
    (hx : ∀ e ∈ x.entities k, ∃ vs, m.vertices? k e = some vs) (hk' : k' ≠ .vertex)
    (he : e ∈ y.entities k') : ∃ k₁ e₁, e₁.group = e.group ∧ m.Spanned k₁ y.vertices e₁ := by
  by_cases hc : k' = .cell
  · subst hc
    obtain ⟨e₁, he₁, hlocal⟩ := (h.cells e).1 he
    exact ⟨k, e₁, hlocal.1.symm, spanned_of_mem hx h.vertices he₁⟩
  by_cases hk : k' = k
  · subst hk
    exact ⟨k', e, rfl, spanned_of_mem hx h.vertices (h.sides ▸ he)⟩
  · exact ⟨k', e, rfl, (h.others k' hk' hc hk e).1 he⟩

/-- Next to every entity that follows from a set of the mesh, in the same group, one is spanned by
the vertices that follow. -/
theorem Derives.exists_spanned (h : m.Derives k x y) (hx : m.Holds k x) (hk' : k' ≠ .vertex)
    (he : e ∈ y.entities k') : ∃ k₁ e₁, e₁.group = e.group ∧ m.Spanned k₁ y.vertices e₁ := by
  cases k with
  | vertex => exact ⟨k', e, rfl, DerivesVertices.spanned h hk' he⟩
  | cell => exact ⟨.cell, DerivesCells.exists_spanned h hx hk' he⟩
  | edge | face | facet => exact DerivesSides.exists_spanned h hx hk' he

end Derives

end Mesh

namespace GroupTopology

variable {k : Kind} {index offset : Nat} {e : ElementGroup}

theorem vertices?_of_table? {g : GroupTopology} {t : EntityTable} (h : g.table? k = some t)
    {i : Nat} : t.vertices? i = (g.items k)[i]? := by
  rw [items, h]
  rfl

/-- An entity of a kind numbered by tables is one of a cell if it has the vertices of one of the
cell's local entities. -/
theorem mem_ofCell_iff {c i : Nat} :
    (∃ t, (ofGroup index e offset).table? k = some t ∧ i ∈ t.ofCell c) ↔
      ∃ cell ps, e.cells[c]? = some cell ∧ ps ∈ e.element.positions k ∧
        (e.items k)[i]? = some (EntityTable.key cell ps) := by
  constructor
  · rintro ⟨t, ht, hi⟩
    obtain ⟨cell, hcell, ps, hps, hkey⟩ := (lists_of_table? ht).mem_ofCell_iff.1 hi
    rw [vertices?_of_table? ht, items_ofGroup] at hkey
    exact ⟨cell, ps, hcell, hps, hkey⟩
  · rintro ⟨cell, ps, hcell, hps, hkey⟩
    cases ht : (ofGroup index e offset).table? k with
    | none =>
      -- vertices and cells have no local entities
      rcases table?_eq_none_iff.1 ht with rfl | rfl <;> cases hps
    | some t =>
      rw [← items_ofGroup, ← vertices?_of_table? ht] at hkey
      exact ⟨t, rfl, (lists_of_table? ht).mem_ofCell_iff.2 ⟨cell, hcell, ps, hps, hkey⟩⟩

end GroupTopology

namespace Topology

variable {m : Mesh} {k : Kind} {x : Extent}

/-! ## Look-ups in the topology and in the mesh -/

theorem vertices?_eq_some_iff_group? {e : Entity} {vs : List Nat} :
    m.vertices? k e = some vs ↔
      ∃ g, (ofMesh m).group? e.group = some g ∧ (g.items k)[e.index]? = some vs := by
  rw [Mesh.vertices?_eq_some_iff]
  constructor
  · rintro ⟨g, hg, hvs⟩
    obtain ⟨offset, hgroup⟩ := exists_group?_of_group hg
    exact ⟨_, hgroup, by rwa [GroupTopology.items_ofGroup]⟩
  · rintro ⟨g, hgroup, hvs⟩
    obtain ⟨e, offset, hg, rfl⟩ := exists_group_of_group? hgroup
    exact ⟨e, hg, by rwa [GroupTopology.items_ofGroup] at hvs⟩

theorem has_ofMesh_iff {e : Entity} : (ofMesh m).Has k e ↔ ∃ vs, m.vertices? k e = some vs := by
  constructor
  · rintro ⟨g, hg, hlt⟩
    rw [← GroupTopology.length_items] at hlt
    exact ⟨_, vertices?_eq_some_iff_group?.2 ⟨g, hg, List.getElem?_eq_getElem hlt⟩⟩
  · rintro ⟨vs, hvs⟩
    obtain ⟨g, hg, hvs⟩ := vertices?_eq_some_iff_group?.1 hvs
    refine ⟨g, hg, ?_⟩
    rw [← GroupTopology.length_items]
    exact (List.getElem?_eq_some_iff.1 hvs).1

theorem mem_incidentVertices_ofMesh {s : EntitySet} {v : Nat} :
    v ∈ (ofMesh m).incidentVertices k s ↔ ∃ e ∈ s, m.HasVertex k e v := by
  simp only [mem_incidentVertices, mem_entityVertices, GroupTopology.entity?_eq_items,
    Mesh.HasVertex, vertices?_eq_some_iff_group?]
  constructor
  · rintro ⟨e, he, g, vs, hg, hvs, hv⟩
    exact ⟨e, he, vs, ⟨g, hg, hvs⟩, hv⟩
  · rintro ⟨e, he, vs, ⟨g, hg, hvs⟩, hv⟩
    exact ⟨e, he, g, vs, hg, hvs, hv⟩

theorem mem_spanned_ofMesh {vertices : IdSet} {e : Entity} :
    e ∈ (ofMesh m).spanned k vertices ↔ m.Spanned k vertices e := by
  rw [mem_spanned]
  constructor
  · rintro ⟨g, hg, hig, vs, hvs, hin⟩
    have hgroup := mem_groups_ofMesh_iff.1 ⟨hg, hig⟩
    exact ⟨vs, vertices?_eq_some_iff_group?.2 ⟨g, hgroup, hvs⟩, hin⟩
  · rintro ⟨vs, hvs, hin⟩
    obtain ⟨g, hgroup, hvs⟩ := vertices?_eq_some_iff_group?.1 hvs
    obtain ⟨hg, hig⟩ := mem_groups_ofMesh_iff.2 hgroup
    exact ⟨g, hg, hig, vs, hvs, hin⟩

theorem isLocal_iff {c e : Entity} :
    m.IsLocal k c e ↔ c.group = e.group ∧ ∃ g table, (ofMesh m).group? e.group = some g ∧
      g.table? k = some table ∧ e.index ∈ table.ofCell c.index := by
  refine and_congr_right fun _ => ?_
  constructor
  · rintro ⟨g, cell, ps, hg, hcell, hps, hvs⟩
    obtain ⟨offset, hgroup⟩ := exists_group?_of_group hg
    obtain ⟨g', hg', hkey⟩ := Mesh.vertices?_eq_some_iff.1 hvs
    cases hg.symm.trans hg'
    obtain ⟨t, ht, hmem⟩ : ∃ t, (GroupTopology.ofGroup e.group g offset).table? k = some t ∧
        e.index ∈ t.ofCell c.index :=
      GroupTopology.mem_ofCell_iff.2 ⟨cell, ps, hcell, hps, hkey⟩
    exact ⟨_, t, hgroup, ht, hmem⟩
  · rintro ⟨g, t, hgroup, ht, hmem⟩
    obtain ⟨el, offset, hg, rfl⟩ := exists_group_of_group? hgroup
    obtain ⟨cell, ps, hcell, hps, hkey⟩ := GroupTopology.mem_ofCell_iff.1 ⟨t, ht, hmem⟩
    exact ⟨el, cell, ps, hg, hcell, hps, Mesh.vertices?_eq_some_iff.2 ⟨el, hg, hkey⟩⟩

theorem mem_entitiesOfCells_ofMesh {cells : EntitySet} {e : Entity} :
    e ∈ (ofMesh m).entitiesOfCells k cells ↔ ∃ c ∈ cells, m.IsLocal k c e := by
  simp only [mem_entitiesOfCells, isLocal_iff]

theorem mem_ownersOf_ofMesh {s : EntitySet} {c : Entity} :
    c ∈ (ofMesh m).ownersOf k s ↔ ∃ e ∈ s, m.IsLocal k c e := by
  have howns {ig : Nat} {g : GroupTopology} {t : EntityTable} {i : Nat}
      (hgroup : (ofMesh m).group? ig = some g) (ht : g.table? k = some t) :
      c.index ∈ t.ownersOf i ↔ i ∈ t.ofCell c.index := by
    obtain ⟨e, offset, -, rfl⟩ := exists_group_of_group? hgroup
    exact (GroupTopology.lists_of_table? ht).mem_ownersOf_iff
  simp only [mem_ownersOf, isLocal_iff]
  constructor
  · rintro ⟨e, he, hig, g, t, hgroup, ht, hmem⟩
    exact ⟨e, he, hig.symm, g, t, hig ▸ hgroup, ht, (howns hgroup ht).1 hmem⟩
  · rintro ⟨e, he, hig, g, t, hgroup, ht, hmem⟩
    exact ⟨e, he, hig.symm, g, t, hig ▸ hgroup, ht, (howns hgroup ht).2 hmem⟩

/-! ## Completion -/

theorem error?_ofMesh_eq_none_iff : (ofMesh m).error? k x = none ↔ m.Holds k x := by
  by_cases hk : k = .vertex
  · subst hk
    exact error?_vertex_eq_none_iff
  · rw [error?_eq_none_iff hk]
    cases k with
    | vertex => exact absurd rfl hk
    | edge | face | facet | cell => simp only [has_ofMesh_iff, Mesh.Holds]

/-- Nothing follows from nothing. -/
theorem derive_empty (k : Kind) : (ofMesh m).derive k {} = {} := by
  have hspanned {k : Kind} : (ofMesh m).spanned k ∅ = ∅ := by
    ext e
    rw [mem_spanned_ofMesh]
    exact iff_of_false Mesh.not_spanned_empty (SortedSet.not_mem_empty e)
  have hincident {k : Kind} : (ofMesh m).incidentVertices k ∅ = ∅ := rfl
  cases k with
  | vertex => simp only [derive, hspanned]
  | cell => rfl
  | edge | face | facet =>
    simp only [derive, Extent.entities, hincident, hspanned, ite_self]
    rfl

theorem derivesVertices_derive : m.DerivesVertices x ((ofMesh m).derive .vertex x) where
  vertices := rfl
  entities k hk e := by rw [entities_derive_vertex hk, mem_spanned_ofMesh]

theorem derivesCells_derive : m.DerivesCells x ((ofMesh m).derive .cell x) where
  cells := rfl
  vertices v := by
    rw [vertices_derive (by decide), mem_incidentVertices_ofMesh]
    rfl
  entities k hk hc e := by rw [entities_derive_cell hk hc, mem_entitiesOfCells_ofMesh]

theorem derivesSides_derive (hk : k ≠ .vertex) (hc : k ≠ .cell) :
    m.DerivesSides k x ((ofMesh m).derive k x) where
  sides := entities_derive_self.trans (if_neg hk)
  vertices v := by rw [vertices_derive hk, mem_incidentVertices_ofMesh]
  cells c := by rw [cells_derive_table hk hc, mem_ownersOf_ofMesh]
  others k' hk' hc' hne e := by
    rw [entities_derive_table hk hc hk' hc' hne, mem_spanned_ofMesh, vertices_derive hk]

theorem derives_derive : m.Derives k x ((ofMesh m).derive k x) := by
  cases k with
  | vertex => exact derivesVertices_derive
  | cell => exact derivesCells_derive
  | edge | face | facet => exact derivesSides_derive (by decide) (by decide)

end Topology

namespace Region

/-- A region whose authoritative set is in the mesh is completed: the set stays, and the others are
what the connectivity of the mesh gives. If the set is not in the mesh the region stays as it was. -/
theorem completed_derives (m : Mesh) (r : Region) :
    (m.Holds r.source r.extent ∧ ∃ s, r.completed (.ofMesh m) = ⟨s, none⟩ ∧ s.isComplete = true ∧
      s.label = r.label ∧ s.kind = r.kind ∧ s.source = r.source ∧
      m.Derives r.source r.extent s.extent) ∨
    (¬ m.Holds r.source r.extent ∧ ∃ e, r.completed (.ofMesh m) = ⟨r, some e⟩) := by
  have hvalid := Topology.error?_ofMesh_eq_none_iff (m := m) (k := r.source) (x := r.extent)
  cases herr : (Topology.ofMesh m).error? r.source r.extent with
  | none =>
    obtain ⟨s, hs⟩ : ∃ s, r.complete (.ofMesh m) = .ok s :=
      ⟨_, complete_eq_ok_iff.2 ⟨herr, rfl⟩⟩
    refine .inl ⟨hvalid.1 herr, s, completed_eq_ok_iff.2 hs, ?_⟩
    obtain ⟨-, rfl⟩ := complete_eq_ok_iff.1 hs
    exact ⟨rfl, rfl, rfl, rfl, Topology.derives_derive⟩
  | some e =>
    have hfails : r.complete (.ofMesh m) = .error e := by
      unfold complete
      rw [herr]
    refine .inr ⟨fun h => ?_, e, ?_⟩
    · rw [hvalid.2 h] at herr
      cases herr
    · unfold completed
      rw [hfails]

end Region

end Subdomain

import Subdomain.Topology.Basic
import Subdomain.Proofs.Mesh.Built
import Subdomain.Proofs.Topology.Table

/-!
# The topology of a mesh

The groups of a topology are those of its mesh, numbered by their places, and
their tables list the edges, faces and facets of their cells. For a valid mesh
every connectivity is also in range (`sound_ofMesh`).
-/

namespace Subdomain

theorem mem_of_mem_pieces {α : Type} {n count : Nat} {l c : List α} (h : c ∈ pieces n count l)
    {a : α} (ha : a ∈ c) : a ∈ l := by
  induction count generalizing l with
  | zero => cases h
  | succ count ih =>
    rcases List.mem_cons.1 h with rfl | h
    · exact List.mem_of_mem_take ha
    · exact List.mem_of_mem_drop (ih h)

/-- The positions of the local entities of a kind in a cell. -/
def Element.positions (e : Element) : Kind → List (List Nat)
  | .edge => e.edges
  | .face => e.faces
  | .facet => e.facets
  | .vertex | .cell => []

namespace GroupTopology

variable {g : GroupTopology}

/-- The vertices of the entities of a kind that is numbered by group, by their numbers. -/
def items (g : GroupTopology) (k : Kind) : List (List Nat) :=
  (g.table? k).elim g.cells (·.entities)

theorem length_items (k : Kind) : (g.items k).length = g.count k := by
  unfold items count
  cases g.table? k with
  | none => exact length_pieces
  | some t => rfl

theorem table?_eq_none_iff {k : Kind} : g.table? k = none ↔ k = .vertex ∨ k = .cell := by
  cases k <;> simp [table?]

theorem exists_table? {k : Kind} (hk : k ≠ .vertex) (hc : k ≠ .cell) :
    ∃ table, g.table? k = some table :=
  Option.ne_none_iff_exists'.1 fun h => (table?_eq_none_iff.1 h).elim hk hc

theorem lists_of_table? {index offset : Nat} {e : ElementGroup} {k : Kind} {t : EntityTable}
    (h : (ofGroup index e offset).table? k = some t) :
    t.Lists (e.element.positions k) e.cells := by
  cases k with
  | vertex | cell => cases h
  | edge | face | facet =>
    cases h
    exact EntityTable.lists_ofCells _ _

end GroupTopology

namespace Topology

/-- What the topology of a valid mesh holds. -/
structure Sound (t : Topology) : Prop where
  index : ∀ ig g, t.group? ig = some g → g.index = ig
  tables : ∀ ig g k table, t.group? ig = some g → g.table? k = some table →
    ∃ positions, table.Lists positions g.cells
  conn : ∀ ig g, t.group? ig = some g → ∀ v ∈ g.conn, v < t.vertexCount

theorem exists_group_of_group? {m : Mesh} {ig : Nat} {g : GroupTopology}
    (h : (ofMesh m).group? ig = some g) :
    ∃ e offset, m.groups[ig]? = some e ∧ g = .ofGroup ig e offset := by
  simp only [group?, ofMesh, List.getElem?_mapIdx] at h
  obtain ⟨⟨e, offset⟩, he, rfl⟩ := Option.map_eq_some_iff.1 h
  rw [List.getElem?_zip_eq_some] at he
  exact ⟨e, offset, he.1, rfl⟩

/-- The groups are numbered by their places, whatever the mesh. -/
theorem index_of_group? {m : Mesh} {ig : Nat} {g : GroupTopology}
    (h : (ofMesh m).group? ig = some g) : g.index = ig := by
  obtain ⟨e, offset, -, rfl⟩ := exists_group_of_group? h
  rfl

theorem sound_ofMesh {m : Mesh} (hm : m.Valid) : (ofMesh m).Sound where
  index ig g h := index_of_group? h
  tables ig g k table h ht := by
    obtain ⟨e, offset, -, rfl⟩ := exists_group_of_group? h
    exact ⟨_, GroupTopology.lists_of_table? ht⟩
  conn ig g h v hv := by
    obtain ⟨e, offset, he, rfl⟩ := exists_group_of_group? h
    exact hm.inRange e (List.mem_of_getElem? he) v hv

variable {t : Topology}

theorem Sound.group?_of_mem (h : t.Sound) {g : GroupTopology} (hg : g ∈ t.groups) :
    t.group? g.index = some g := by
  obtain ⟨ig, hig⟩ := List.mem_iff_getElem?.1 hg
  rw [h.index ig g hig]
  exact hig

/-- The vertices of an entity are used by its group. -/
theorem Sound.mem_conn_of_entity? (h : t.Sound) {ig i : Nat} {g : GroupTopology} {k : Kind}
    {vs : List Nat} (hg : t.group? ig = some g) (hvs : g.entity? k i = some vs) {v : Nat}
    (hv : v ∈ vs) : v ∈ g.conn := by
  unfold GroupTopology.entity? at hvs
  cases htab : g.table? k with
  | none =>
    simp only [htab, Option.elim_none, GroupTopology.cell?] at hvs
    split at hvs
    · cases hvs
      exact List.mem_of_mem_drop (List.mem_of_mem_take hv)
    · cases hvs
  | some table =>
    simp only [htab, Option.elim_some] at hvs
    obtain ⟨positions, hl⟩ := h.tables ig g k table hg htab
    obtain ⟨c, cell, hcell, -, ps, -, rfl⟩ := hl.exists_cell hvs
    exact mem_of_mem_pieces (List.mem_of_getElem? hcell) (EntityTable.mem_of_mem_key hv)

end Topology

end Subdomain

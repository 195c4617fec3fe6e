import Subdomain.Proofs.Topology.OfMesh

/-!
# Connectivity

The entities of a mesh, read off its cells. The cells of a group are numbered as
they are listed. Its edges, faces and facets are the local entities of the cells,
numbered as the cells first show them; two with the same vertices are one. An
entity is never without a vertex and lies in a cell (`exists_cell_of_mem_items`).
The groups of a topology number their entities in this way (`items_ofGroup`).
-/

namespace Subdomain

namespace Element

theorem positions_lt {e : Element} {k : Kind} :
    ∀ ps ∈ e.positions k, ∀ p ∈ ps, p < e.vertexCount := by
  cases k with
  | edge => exact edges_lt
  | face => exact faces_lt
  | facet => exact facets_lt
  | vertex | cell => exact fun ps hps => absurd hps List.not_mem_nil

theorem positions_ne_nil {e : Element} {k : Kind} : ∀ ps ∈ e.positions k, ps ≠ [] := by
  cases e <;> cases k <;> decide

end Element

theorem getElem?_pieces {α : Type} {n count i : Nat} {l : List α} :
    (pieces n count l)[i]? = if i < count then some ((l.drop (i * n)).take n) else none := by
  induction count generalizing i l with
  | zero => rfl
  | succ count ih =>
    cases i with
    | zero => simp [pieces]
    | succ i =>
      have hdrop : n + i * n = (i + 1) * n := by rw [Nat.add_one_mul, Nat.add_comm]
      rw [pieces, List.getElem?_cons_succ, ih, List.drop_drop, hdrop]
      simp only [Nat.add_lt_add_iff_right]

/-- The piece `i` of a list cut into pieces of `n` fits in if there are more than `i` of them. -/
theorem lt_div_iff_fits {n len i : Nat} (hn : 0 < n) : i < len / n ↔ i * n + n ≤ len := by
  rw [Nat.lt_iff_add_one_le, Nat.le_div_iff_mul_le hn, Nat.add_one_mul]

namespace ElementGroup

variable {g : ElementGroup} {k : Kind}

/-- The vertices of the entities of a kind, by their numbers. -/
def items (g : ElementGroup) : Kind → List (List Nat)
  | .vertex | .cell => g.cells
  | k =>
    (g.cells.flatMap fun cell => (g.element.positions k).map (EntityTable.key cell)).eraseDups

theorem length_of_mem_cells {cell : List Nat} (h : cell ∈ g.cells) :
    cell.length = g.element.vertexCount := by
  obtain ⟨i, hi⟩ := List.mem_iff_getElem?.1 h
  rw [cells, getElem?_pieces] at hi
  split at hi
  · rename_i hlt
    have hfits := (lt_div_iff_fits g.element.vertexCount_pos).1 hlt
    cases hi
    rw [List.length_take, List.length_drop]
    omega
  · cases hi

theorem mem_conn_of_mem_cells {cell : List Nat} (h : cell ∈ g.cells) {v : Nat} (hv : v ∈ cell) :
    v ∈ g.conn :=
  mem_of_mem_pieces h hv

theorem key_ne_nil {cell ps : List Nat} (hcell : cell ∈ g.cells)
    (hps : ps ∈ g.element.positions k) : EntityTable.key cell ps ≠ [] := by
  refine EntityTable.key_ne_nil (Element.positions_ne_nil ps hps) fun p hp => ?_
  rw [length_of_mem_cells hcell]
  exact Element.positions_lt ps hps p hp

/-- An entity has a vertex, and its vertices are those of one cell. -/
theorem exists_cell_of_mem_items {vs : List Nat} (h : vs ∈ g.items k) :
    vs ≠ [] ∧ ∃ cell ∈ g.cells, ∀ v ∈ vs, v ∈ cell := by
  have hcell {k : Kind} (hloc : vs ∈ (g.cells.flatMap fun cell =>
      (g.element.positions k).map (EntityTable.key cell)).eraseDups) :
      vs ≠ [] ∧ ∃ cell ∈ g.cells, ∀ v ∈ vs, v ∈ cell := by
    rw [List.mem_eraseDups, List.mem_flatMap] at hloc
    obtain ⟨cell, hcell, hmem⟩ := hloc
    obtain ⟨ps, hps, rfl⟩ := List.mem_map.1 hmem
    exact ⟨key_ne_nil hcell hps, cell, hcell, fun v => EntityTable.mem_of_mem_key⟩
  cases k with
  | vertex | cell =>
    have hlen := length_of_mem_cells h
    have hpos := g.element.vertexCount_pos
    refine ⟨fun hnil => ?_, vs, h, fun v hv => hv⟩
    rw [hnil, List.length_nil] at hlen
    omega
  | edge | face | facet => exact hcell h

end ElementGroup

namespace GroupTopology

variable {g : GroupTopology} {k : Kind} {index offset : Nat} {e : ElementGroup}

theorem entity?_eq_items {i : Nat} : g.entity? k i = (g.items k)[i]? := by
  unfold entity? items
  cases g.table? k with
  | some t => rfl
  | none =>
    have hfits : i < g.conn.length / g.element.vertexCount ↔
        i * g.element.vertexCount + g.element.vertexCount ≤ g.conn.length :=
      lt_div_iff_fits g.element.vertexCount_pos
    simp only [Option.elim_none, cell?, cells, getElem?_pieces, cellCount, hfits]

/-- The groups of a topology number the entities of a kind as the connectivity does. -/
theorem items_ofGroup : (ofGroup index e offset).items k = e.items k := by
  cases k with
  | vertex | cell => rfl
  | edge | face | facet => exact EntityTable.entities_ofCells _ _

end GroupTopology

namespace Mesh

variable (m : Mesh)

/-- The vertices of an entity of a kind. -/
def vertices? (k : Kind) (e : Entity) : Option (List Nat) :=
  (m.groups[e.group]?).bind fun g => (g.items k)[e.index]?

/-- The entity `e` of a kind is one of the local entities of the cell `c`. -/
def IsLocal (k : Kind) (c e : Entity) : Prop :=
  c.group = e.group ∧ ∃ g cell ps, m.groups[e.group]? = some g ∧ g.cells[c.index]? = some cell ∧
    ps ∈ g.element.positions k ∧ m.vertices? k e = some (EntityTable.key cell ps)

variable {m}

theorem vertices?_eq_some_iff {k : Kind} {e : Entity} {vs : List Nat} :
    m.vertices? k e = some vs ↔ ∃ g, m.groups[e.group]? = some g ∧ (g.items k)[e.index]? = some vs :=
  Option.bind_eq_some_iff

end Mesh

namespace Topology

variable {m : Mesh} {ig : Nat}

/-- The topology of a mesh has the groups of the mesh, by their places. -/
theorem exists_group?_of_group {e : ElementGroup} (h : m.groups[ig]? = some e) :
    ∃ offset, (ofMesh m).group? ig = some (.ofGroup ig e offset) := by
  have hlt : ig < m.cellOffsets.length := by
    rw [Mesh.cellOffsets, Mesh.length_offsetsFrom]
    exact (List.getElem?_eq_some_iff.1 h).1
  have hzip : (m.groups.zip m.cellOffsets)[ig]? = some (e, m.cellOffsets[ig]) :=
    List.getElem?_zip_eq_some.2 ⟨h, List.getElem?_eq_getElem hlt⟩
  refine ⟨m.cellOffsets[ig], ?_⟩
  rw [group?, ofMesh, List.getElem?_mapIdx, hzip]
  rfl

theorem mem_groups_ofMesh_iff {g : GroupTopology} :
    g ∈ (ofMesh m).groups ∧ g.index = ig ↔ (ofMesh m).group? ig = some g := by
  constructor
  · rintro ⟨hg, rfl⟩
    obtain ⟨i, hi⟩ := List.mem_iff_getElem?.1 hg
    rwa [index_of_group? hi]
  · intro h
    exact ⟨List.mem_of_getElem? h, index_of_group? h⟩

end Topology

end Subdomain

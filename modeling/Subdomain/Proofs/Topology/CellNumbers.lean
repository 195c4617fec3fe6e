import Subdomain.Proofs.Topology.Connectivity

/-!
# Cell numbers

The cells of a mesh are counted group after group (`Mesh.cellNumber`). The cell with a
number is found by this count and by no other (`locateCell?_eq_some_iff`), there is one
for every number below the count of all cells, and the offsets of the groups, in the
mesh and in its topology, and the order of the centroids are those of the count.
Groups may be without cells.
-/

namespace Subdomain

namespace Mesh

/-- The count of the cells in the groups before group `ig`. -/
def firstCell (m : Mesh) (ig : Nat) : Nat := total ((m.groups.take ig).map (·.cellCount))

def cellNumber (m : Mesh) (c : Entity) : Nat := m.firstCell c.group + c.index

def HasCell (m : Mesh) (c : Entity) : Prop :=
  ∃ g, m.groups[c.group]? = some g ∧ c.index < g.cellCount

variable {m : Mesh} {gs : List ElementGroup} {c d : Entity} {i ig : Nat}

/-! ## Looking a cell up -/

theorem locateFrom_eq_some_iff : locateFrom ig i gs = some c ↔
    ∃ j g, c.group = ig + j ∧ gs[j]? = some g ∧ c.index < g.cellCount ∧
      i = total ((gs.take j).map (·.cellCount)) + c.index := by
  induction gs generalizing ig i with
  | nil => simp [locateFrom]
  | cons g gs ih =>
    rw [locateFrom]
    constructor
    · intro h
      split at h
      · rename_i hi
        cases h
        exact ⟨0, g, rfl, rfl, hi, (Nat.zero_add i).symm⟩
      · obtain ⟨j, g', hgroup, hg', hlt, hi⟩ := ih.1 h
        refine ⟨j + 1, g', by omega, hg', hlt, ?_⟩
        rw [List.take_succ_cons, List.map_cons, total_cons]
        omega
    · rintro ⟨j, g', hgroup, hg', hlt, hi⟩
      cases j with
      | zero =>
        cases hg'
        obtain rfl : i = c.index := by simpa using hi
        rw [if_pos hlt, ← Nat.add_zero ig, ← hgroup]
      | succ j =>
        rw [List.take_succ_cons, List.map_cons, total_cons] at hi
        rw [if_neg (by omega), ih]
        exact ⟨j, g', by omega, hg', hlt, by omega⟩

theorem locateFrom_eq_none_iff :
    locateFrom ig i gs = none ↔ total (gs.map (·.cellCount)) ≤ i := by
  induction gs generalizing ig i with
  | nil => simp [locateFrom]
  | cons g gs ih =>
    rw [locateFrom, List.map_cons, total_cons]
    split
    · exact iff_of_false (by simp) (by omega)
    · rw [ih]
      omega

theorem locateCell?_eq_some_iff : m.locateCell? i = some c ↔ m.HasCell c ∧ i = m.cellNumber c := by
  rw [locateCell?, locateFrom_eq_some_iff]
  constructor
  · rintro ⟨j, g, hgroup, hg, hlt, hi⟩
    obtain rfl : c.group = j := by omega
    exact ⟨⟨g, hg, hlt⟩, hi⟩
  · rintro ⟨⟨g, hg, hlt⟩, hi⟩
    exact ⟨c.group, g, (Nat.zero_add _).symm, hg, hlt, hi⟩

theorem locateCell?_eq_none_iff : m.locateCell? i = none ↔ m.cellCount ≤ i :=
  locateFrom_eq_none_iff

theorem exists_locateCell? (h : i < m.cellCount) : ∃ c, m.locateCell? i = some c := by
  cases hc : m.locateCell? i with
  | some c => exact ⟨c, rfl⟩
  | none =>
    have hle := locateCell?_eq_none_iff.1 hc
    omega

theorem HasCell.locateCell? (h : m.HasCell c) : m.locateCell? (m.cellNumber c) = some c :=
  locateCell?_eq_some_iff.2 ⟨h, rfl⟩

theorem HasCell.cellNumber_lt (h : m.HasCell c) : m.cellNumber c < m.cellCount := by
  have hne : m.locateCell? (m.cellNumber c) ≠ none := by
    rw [h.locateCell?]
    simp
  rw [Ne, locateCell?_eq_none_iff] at hne
  omega

/-! ## The order of cells -/

theorem firstCell_mono {jg : Nat} (h : ig ≤ jg) : m.firstCell ig ≤ m.firstCell jg := by
  obtain ⟨n, rfl⟩ := Nat.exists_eq_add_of_le h
  rw [firstCell, firstCell, List.take_add, List.map_append, total_append]
  exact Nat.le_add_right _ _

theorem firstCell_succ {g : ElementGroup} (h : m.groups[ig]? = some g) :
    m.firstCell (ig + 1) = m.firstCell ig + g.cellCount := by
  rw [firstCell, firstCell, List.take_add_one, h, List.map_append, total_append]
  rfl

/-- Cells are numbered in their order: by group, and by index in a group. -/
theorem HasCell.cellNumber_lt_cellNumber (h : m.HasCell c) (hlt : c < d) :
    m.cellNumber c < m.cellNumber d := by
  obtain ⟨g, hg, hindex⟩ := h
  unfold cellNumber
  rcases hlt with hgroup | ⟨hgroup, hindex'⟩
  · have hfirst := firstCell_succ hg
    have hmono : m.firstCell (c.group + 1) ≤ m.firstCell d.group := firstCell_mono hgroup
    omega
  · rw [hgroup]
    omega

/-! ## Offsets and centroids -/

theorem getElem?_offsetsFrom {first : Nat} : (offsetsFrom first gs)[ig]? =
    (gs[ig]?).map fun _ => first + total ((gs.take ig).map (·.cellCount)) := by
  induction gs generalizing first ig with
  | nil => rfl
  | cons g gs ih =>
    cases ig with
    | zero => rfl
    | succ ig =>
      rw [offsetsFrom, List.getElem?_cons_succ, ih, List.getElem?_cons_succ, List.take_succ_cons,
        List.map_cons, total_cons, Nat.add_assoc]

theorem getElem?_cellOffsets :
    m.cellOffsets[ig]? = (m.groups[ig]?).map fun _ => m.firstCell ig := by
  rw [cellOffsets, getElem?_offsetsFrom]
  simp only [Nat.zero_add, firstCell]

/-- The cells in a row are numbered group after group. -/
theorem getElem?_flatMap_cells {cell : List Nat} : (gs.flatMap (·.cells))[i]? = some cell ↔
    ∃ j g n, gs[j]? = some g ∧ g.cells[n]? = some cell ∧
      i = total ((gs.take j).map (·.cellCount)) + n := by
  induction gs generalizing i with
  | nil => simp
  | cons g gs ih =>
    have hlength : g.cells.length = g.cellCount := length_pieces
    rw [List.flatMap_cons]
    constructor
    · intro h
      by_cases hi : i < g.cellCount
      · rw [List.getElem?_append_left (by omega)] at h
        exact ⟨0, g, i, rfl, h, (Nat.zero_add i).symm⟩
      · rw [List.getElem?_append_right (by omega)] at h
        obtain ⟨j, g', n, hg', hn, hi'⟩ := ih.1 h
        refine ⟨j + 1, g', n, hg', hn, ?_⟩
        rw [List.take_succ_cons, List.map_cons, total_cons]
        omega
    · rintro ⟨j, g', n, hg', hn, hi⟩
      cases j with
      | zero =>
        cases hg'
        obtain rfl : i = n := by simpa using hi
        rwa [List.getElem?_append_left (List.getElem?_eq_some_iff.1 hn).1]
      | succ j =>
        rw [List.take_succ_cons, List.map_cons, total_cons] at hi
        rw [List.getElem?_append_right (by omega)]
        exact ih.2 ⟨j, g', n, hg', hn, by omega⟩

theorem hasCell_iff : m.HasCell c ↔ ∃ vs, m.vertices? .cell c = some vs := by
  have hlength {g : ElementGroup} : (g.items .cell).length = g.cellCount := length_pieces
  constructor
  · rintro ⟨g, hg, hlt⟩
    rw [← hlength] at hlt
    exact ⟨_, vertices?_eq_some_iff.2 ⟨g, hg, List.getElem?_eq_getElem hlt⟩⟩
  · rintro ⟨vs, hvs⟩
    obtain ⟨g, hg, hvs⟩ := vertices?_eq_some_iff.1 hvs
    exact ⟨g, hg, hlength ▸ (List.getElem?_eq_some_iff.1 hvs).1⟩

/-- The centroid with a number is that of the cell with the number. -/
theorem getElem?_centroids :
    m.centroids[i]? = ((m.locateCell? i).bind (m.vertices? .cell)).map m.centroid := by
  have hcells : (m.groups.flatMap (·.cells))[i]? =
      (m.locateCell? i).bind (m.vertices? .cell) := by
    refine Option.ext fun cell => ?_
    rw [getElem?_flatMap_cells, Option.bind_eq_some_iff]
    constructor
    · rintro ⟨j, g, n, hg, hn, hi⟩
      have hcell : m.vertices? .cell ⟨j, n⟩ = some cell := vertices?_eq_some_iff.2 ⟨g, hg, hn⟩
      exact ⟨⟨j, n⟩, locateCell?_eq_some_iff.2 ⟨hasCell_iff.2 ⟨cell, hcell⟩, hi⟩, hcell⟩
    · rintro ⟨c, hc, hcell⟩
      obtain ⟨g, hg, hn⟩ := vertices?_eq_some_iff.1 hcell
      exact ⟨c.group, g, c.index, hg, hn, (locateCell?_eq_some_iff.1 hc).2⟩
  rw [centroids, List.getElem?_map, hcells]

end Mesh

namespace Topology

variable {m : Mesh} {ig : Nat}

theorem group?_ofMesh : (ofMesh m).group? ig =
    (m.groups[ig]?).map fun g => .ofGroup ig g (m.firstCell ig) := by
  cases hg : m.groups[ig]? with
  | none =>
    cases hgroup : (ofMesh m).group? ig with
    | none => rfl
    | some g =>
      obtain ⟨e, -, he, -⟩ := exists_group_of_group? hgroup
      cases hg.symm.trans he
  | some g =>
    have hoffset : m.cellOffsets[ig]? = some (m.firstCell ig) := by
      rw [Mesh.getElem?_cellOffsets, hg]
      rfl
    have hzip : (m.groups.zip m.cellOffsets)[ig]? = some (g, m.firstCell ig) :=
      List.getElem?_zip_eq_some.2 ⟨hg, hoffset⟩
    rw [group?, ofMesh, List.getElem?_mapIdx, hzip]
    rfl

theorem groups_ofMesh :
    (ofMesh m).groups = m.groups.mapIdx fun ig g => .ofGroup ig g (m.firstCell ig) := by
  refine List.ext_getElem? fun ig => ?_
  rw [List.getElem?_mapIdx]
  exact group?_ofMesh

theorem groupCount_ofMesh : (ofMesh m).groupCount = m.groupCount := by
  rw [groupCount, groups_ofMesh, List.length_mapIdx]
  rfl

theorem cellCount_ofMesh : (ofMesh m).cellCount = m.cellCount := by
  have hcounts : (ofMesh m).groups.map (·.cellCount) = m.groups.map (·.cellCount) := by
    refine List.ext_getElem? fun ig => ?_
    rw [groups_ofMesh, List.getElem?_map, List.getElem?_mapIdx, List.getElem?_map, Option.map_map]
    rfl
  exact congrArg total hcounts

/-- The groups of a topology begin at the offsets of the mesh. -/
theorem cellOffsets_ofMesh : (ofMesh m).groups.map (·.cellOffset) = m.cellOffsets := by
  refine List.ext_getElem? fun ig => ?_
  rw [groups_ofMesh, List.getElem?_map, List.getElem?_mapIdx, Option.map_map,
    Mesh.getElem?_cellOffsets]
  rfl

end Topology

end Subdomain

import Subdomain.Proofs.Mesh.Built

/-!
# Construction

A mesh is made from points and then changed by edits, of which any may be refused. What an
edit asks for is just what keeps the mesh valid (`Valid.pushGroup_iff`), so that the mesh is
valid after all edits, whichever of them were refused (`construction_valid`). Of several
faults of a group the first in the order of `groupError?` is told: that it does not split
into whole cells, then a vertex that the mesh does not have, then its material id.
-/

namespace Subdomain

namespace Mesh

inductive Edit where
  | addGroup (g : ElementGroup)
  | setTags (tags : List Int)
  | addVertexSet (name : String) (vertices : List Nat)
  | addCellSet (name : String) (cells : List Nat)

/-- The answer to an edit, with the index of the group if one was added, and the mesh that it leaves
behind. -/
def Edit.run (m : Mesh) : Edit → Except MeshError (Option Nat) × Mesh
  | addGroup g => (m.addGroup g).map (·.map some) id
  | setTags tags => (m.setTags tags).map (·.map fun _ => none) id
  | addVertexSet name vertices => (.ok none, m.addVertexSet name vertices)
  | addCellSet name cells => (.ok none, m.addCellSet name cells)

def Edit.next (m : Mesh) (edit : Edit) : Mesh := (edit.run m).2

/-- The mesh after edits in turn. -/
def after (m : Mesh) (edits : List Edit) : Mesh := edits.foldl (fun m edit => edit.next m) m

variable {m : Mesh} {g : ElementGroup} {edit : Edit} {e : MeshError}

/-! ## Faults of a group -/

theorem groupError?_of_ragged (h : g.conn.length % g.element.vertexCount ≠ 0) :
    m.groupError? g =
      some (.raggedConnectivity m.groupCount g.conn.length g.element.vertexCount) :=
  if_pos h

/-- The first vertex that the mesh does not have is told. -/
theorem groupError?_of_foreign {front rest : List Nat} {v : Nat}
    (hw : g.conn.length % g.element.vertexCount = 0) (hconn : g.conn = front ++ v :: rest)
    (hfront : ∀ u ∈ front, u < m.vertexCount) (hv : m.vertexCount ≤ v) :
    m.groupError? g = some (.invalidVertexIndex m.groupCount v m.vertexCount) := by
  have hfind : g.conn.find? (m.vertexCount ≤ ·) = some v := by
    rw [hconn, List.find?_append, List.find?_eq_none.2, List.find?_cons_of_pos]
    · rfl
    · exact decide_eq_true hv
    · intro u hu
      have := hfront u hu
      simpa using this
  rw [groupError?, if_neg (fun h => h hw), hfind]

theorem groupError?_of_material (hw : g.conn.length % g.element.vertexCount = 0)
    (hv : ∀ v ∈ g.conn, v < m.vertexCount) (hm : g.material ∈ m.groups.map (·.material)) :
    m.groupError? g = some (.duplicateMaterial g.material) := by
  have hfind : g.conn.find? (m.vertexCount ≤ ·) = none := by
    simpa [List.find?_eq_none] using hv
  have hany : m.groups.any (·.material = g.material) = true := by
    simpa [List.any_eq_true] using hm
  rw [groupError?, if_neg (fun h => h hw), hfind, hany]
  rfl

/-- A group passes just if the mesh is valid with it. -/
theorem Valid.pushGroup_iff (hm : m.Valid) :
    (m.pushGroup g).Valid ↔ m.groupError? g = none := by
  constructor
  · intro h
    have hg : g ∈ (m.pushGroup g).groups := List.mem_append_right _ List.mem_cons_self
    refine groupError?_eq_none_iff.2 ⟨h.whole g hg, h.inRange g hg, ?_⟩
    have hnodup := h.materials
    rw [pushGroup, List.map_append, List.nodup_append] at hnodup
    exact fun hmem => hnodup.2.2 _ hmem _ (by simp) rfl
  · exact valid_pushGroup hm

/-- The groups are found by their material ids. -/
theorem Valid.groupOfMaterial? (hm : m.Valid) {ig : Nat} (h : m.groups[ig]? = some g) :
    m.groupOfMaterial? g.material = some ig := by
  obtain ⟨hlt, rfl⟩ := List.getElem?_eq_some_iff.1 h
  refine List.findIdx?_eq_some_iff_getElem.2 ⟨hlt, decide_eq_true rfl, fun j hj hsame => ?_⟩
  have hne := List.pairwise_iff_getElem.1 hm.materials j ig
    (by rw [List.length_map]; omega) (by rwa [List.length_map]) hj
  rw [List.getElem_map, List.getElem_map] at hne
  exact hne (of_decide_eq_true hsame)

/-! ## Edits -/

theorem fst_addGroup_eq_ok_iff {ig : Nat} :
    (m.addGroup g).1 = .ok ig ↔ m.groupError? g = none ∧ ig = m.groupCount := by
  cases h : m.groupError? g with
  | none => simp [addGroup_of_none h, eq_comm]
  | some e => simp [addGroup_of_error h]

/-- An edit that is refused leaves the mesh as it was. -/
theorem Edit.next_of_error (h : (edit.run m).1 = .error e) : edit.next m = m := by
  cases edit with
  | addGroup g =>
    cases hg : m.groupError? g with
    | none =>
      rw [run, addGroup_of_none hg] at h
      cases h
    | some e' => rw [next, run, addGroup_of_error hg, Prod.map_snd, id]
  | setTags tags =>
    by_cases htags : tags.length = m.vertexCount
    · rw [run, Mesh.setTags, if_pos htags] at h
      cases h
    · rw [next, run, Mesh.setTags, if_neg htags, Prod.map_snd, id]
  | addVertexSet name vertices => cases h
  | addCellSet name cells => cases h

/-- An edit keeps the mesh built and changes neither its dimension nor its vertices. -/
theorem built_next (hm : m.Built) (edit : Edit) :
    (edit.next m).Built ∧ (edit.next m).dim = m.dim ∧ (edit.next m).coors = m.coors := by
  cases edit with
  | addGroup g =>
    refine ⟨hm.addGroup g, ?_⟩
    cases hg : m.groupError? g with
    | none => simp [Edit.next, Edit.run, addGroup_of_none hg, pushGroup]
    | some e => simp [Edit.next, Edit.run, addGroup_of_error hg]
  | setTags tags =>
    refine ⟨hm.setTags tags, ?_⟩
    by_cases htags : tags.length = m.vertexCount <;> simp [Edit.next, Edit.run, setTags, htags]
  | addVertexSet name vertices => exact ⟨hm.addVertexSet name vertices, rfl, rfl⟩
  | addCellSet name cells => exact ⟨hm.addCellSet name cells, rfl, rfl⟩

theorem built_after (hm : m.Built) (edits : List Edit) :
    (m.after edits).Built ∧ (m.after edits).dim = m.dim ∧ (m.after edits).coors = m.coors := by
  induction edits generalizing m with
  | nil => exact ⟨hm, rfl, rfl⟩
  | cons edit edits ih =>
    obtain ⟨hbuilt, hdim, hcoors⟩ := built_next hm edit
    obtain ⟨hbuilt', hdim', hcoors'⟩ := ih hbuilt
    exact ⟨hbuilt', hdim'.trans hdim, hcoors'.trans hcoors⟩

/-! ## Construction -/

/-- A group is added, behind the others and under the next index, just if the mesh is valid with it.
Otherwise the first of its faults is told. -/
structure AddsValid (m : Mesh) : Prop where
  accepted : ∀ g, (∃ ig, (m.addGroup g).1 = .ok ig) ↔ (m.pushGroup g).Valid
  added : ∀ g ig, (m.addGroup g).1 = .ok ig →
    let m' := (m.addGroup g).2
    m'.groups = m.groups ++ [g] ∧ m' = { m with groups := m'.groups } ∧
      ig = m.groupCount ∧ m'.groupCount = ig + 1
  ragged : ∀ g, g.conn.length % g.element.vertexCount ≠ 0 → m.addGroup g =
    (.error (.raggedConnectivity m.groupCount g.conn.length g.element.vertexCount), m)
  foreign : ∀ g front v rest, g.conn.length % g.element.vertexCount = 0 →
    g.conn = front ++ v :: rest → (∀ u ∈ front, u < m.vertexCount) → m.vertexCount ≤ v →
      m.addGroup g = (.error (.invalidVertexIndex m.groupCount v m.vertexCount), m)
  material : ∀ g, g.conn.length % g.element.vertexCount = 0 → (∀ v ∈ g.conn, v < m.vertexCount) →
    g.material ∈ m.groups.map (·.material) →
      m.addGroup g = (.error (.duplicateMaterial g.material), m)

theorem Valid.addsValid (hm : m.Valid) : m.AddsValid where
  accepted g := by
    rw [hm.pushGroup_iff]
    constructor
    · rintro ⟨ig, h⟩
      exact (fst_addGroup_eq_ok_iff.1 h).1
    · exact fun h => ⟨_, fst_addGroup_eq_ok_iff.2 ⟨h, rfl⟩⟩
  added g ig h := by
    obtain ⟨hg, rfl⟩ := fst_addGroup_eq_ok_iff.1 h
    rw [addGroup_of_none hg]
    exact ⟨rfl, rfl, rfl, by simp [groupCount, pushGroup]⟩
  ragged g h := addGroup_of_error (groupError?_of_ragged h)
  foreign g front v rest hw hconn hfront hv :=
    addGroup_of_error (groupError?_of_foreign hw hconn hfront hv)
  material g hw hv hmem := addGroup_of_error (groupError?_of_material hw hv hmem)

/-- A mesh that comes from points stays valid under all edits, whichever of them are refused. -/
theorem construction_valid {name : String} {dim : Nat} {coors : List Point}
    (h : ofPoints name dim coors = .ok m) (edits : List Edit) :
    let n := m.after edits
    n.Valid ∧ n.dim = dim ∧ n.coors = coors ∧
      (∀ ig g, n.groups[ig]? = some g → n.groupOfMaterial? g.material = some ig) ∧
      n.AddsValid ∧ ∀ (edit : Edit) e, (edit.run n).1 = .error e → edit.next n = n := by
  obtain ⟨hbuilt, hdim, hcoors⟩ := built_after (.ofPoints h) edits
  have hstart : m.dim = dim ∧ m.coors = coors := by
    unfold ofPoints at h
    split at h
    · cases h
      exact ⟨rfl, rfl⟩
    · cases h
  exact ⟨hbuilt.valid, hdim.trans hstart.1, hcoors.trans hstart.2,
    fun ig g => hbuilt.valid.groupOfMaterial?, hbuilt.valid.addsValid,
    fun edit e => Edit.next_of_error⟩

/-- Two triangles, a ragged group, a group with a vertex too many and one of a material id that is
there: only the first is added. -/
theorem construction_valid_triangles :
    let edits := [.addGroup ⟨5, .triangle, [0, 1, 3, 0, 3, 2]⟩, .addGroup ⟨6, .triangle, [0, 9]⟩,
      .addGroup ⟨5, .triangle, [0, 1, 9]⟩, .addGroup ⟨5, .triangle, [0, 1, 2]⟩,
      .setTags [1, 2], .setTags [1, 2, 2, 1]]
    let coors := [⟨0, 0, 0⟩, ⟨1, 0, 0⟩, ⟨0, 1, 0⟩, ⟨1, 1, 0⟩]
    ∃ m, ofPoints "square" 2 coors = .ok m ∧ (m.after edits).groupCount = 1 ∧
      (m.after edits).tags = [1, 2, 2, 1] ∧ (m.after edits).Valid := by
  intro edits coors
  obtain ⟨m, hm⟩ : ∃ m, ofPoints "square" 2 coors = .ok m := ⟨_, rfl⟩
  refine ⟨m, hm, ?_, ?_, (construction_valid hm edits).1⟩
  · cases hm
    decide +kernel
  · cases hm
    decide +kernel

end Mesh

end Subdomain

import Subdomain.Mesh.Grid

/-!
# Built meshes

`Mesh.Built` holds of the meshes that come from points by adding groups and
naming sets. Every one of them is valid: whole cells over its own vertices, one
material id for each group, one tag for each vertex. The structured meshes are
built as well.
-/

namespace Subdomain

namespace Mesh

inductive Built : Mesh → Prop where
  | ofPoints {name : String} {dim : Nat} {coors : List Point} {m : Mesh} :
      Mesh.ofPoints name dim coors = .ok m → Built m
  | addGroup {m : Mesh} (g : ElementGroup) : Built m → Built (m.addGroup g).2
  | setTags {m : Mesh} (tags : List Int) : Built m → Built (m.setTags tags).2
  | addVertexSet {m : Mesh} (name : String) (vertices : List Nat) :
      Built m → Built (m.addVertexSet name vertices)
  | addCellSet {m : Mesh} (name : String) (cells : List Nat) :
      Built m → Built (m.addCellSet name cells)

structure Valid (m : Mesh) : Prop where
  dim : 1 ≤ m.dim ∧ m.dim ≤ 3
  tagged : m.tags.length = m.vertexCount
  whole : ∀ g ∈ m.groups, g.conn.length % g.element.vertexCount = 0
  inRange : ∀ g ∈ m.groups, ∀ v ∈ g.conn, v < m.vertexCount
  materials : (m.groups.map (·.material)).Nodup

theorem groupError?_eq_none_iff {m : Mesh} {g : ElementGroup} :
    m.groupError? g = none ↔ g.conn.length % g.element.vertexCount = 0 ∧
      (∀ v ∈ g.conn, v < m.vertexCount) ∧ g.material ∉ m.groups.map (·.material) := by
  have hfind : g.conn.find? (m.vertexCount ≤ ·) = none ↔ ∀ v ∈ g.conn, v < m.vertexCount := by
    simp [List.find?_eq_none]
  have hany : (m.groups.any (·.material = g.material)) = false ↔
      g.material ∉ m.groups.map (·.material) := by
    simp [List.any_eq_false]
  rw [← hfind, ← hany]
  unfold groupError?
  by_cases hw : g.conn.length % g.element.vertexCount = 0
  · cases g.conn.find? (m.vertexCount ≤ ·) with
    | some v => simp [hw]
    | none => cases m.groups.any (·.material = g.material) <;> simp [hw]
  · simp [hw]

theorem addGroup_of_error {m : Mesh} {g : ElementGroup} {e : MeshError}
    (h : m.groupError? g = some e) : m.addGroup g = (.error e, m) := by
  rw [addGroup, h]

theorem addGroup_of_none {m : Mesh} {g : ElementGroup} (h : m.groupError? g = none) :
    m.addGroup g = (.ok m.groupCount, m.pushGroup g) := by
  rw [addGroup, h]

theorem addGroup_eq_ok_iff {m m' : Mesh} {g : ElementGroup} {ig : Nat} :
    m.addGroup g = (.ok ig, m') ↔
      m.groupError? g = none ∧ ig = m.groupCount ∧ m' = m.pushGroup g := by
  cases h : m.groupError? g with
  | none => simp [addGroup_of_none h, eq_comm]
  | some e => simp [addGroup_of_error h]

theorem valid_pushGroup {m : Mesh} {g : ElementGroup} (hm : m.Valid)
    (hg : m.groupError? g = none) : (m.pushGroup g).Valid := by
  obtain ⟨hw, hv, hn⟩ := groupError?_eq_none_iff.1 hg
  refine ⟨hm.dim, hm.tagged, fun g' hg' => ?_, fun g' hg' => ?_, ?_⟩
  · rcases List.mem_append.1 hg' with hg' | hg'
    · exact hm.whole g' hg'
    · exact List.mem_singleton.1 hg' ▸ hw
  · rcases List.mem_append.1 hg' with hg' | hg'
    · exact hm.inRange g' hg'
    · exact List.mem_singleton.1 hg' ▸ hv
  · rw [pushGroup, List.map_append, List.nodup_append]
    refine ⟨hm.materials, by simp, fun a ha b hb e => hn ?_⟩
    rw [List.map_singleton, List.mem_singleton] at hb
    exact hb ▸ e ▸ ha

theorem Valid.setTags {m : Mesh} (hm : m.Valid) (tags : List Int) : (m.setTags tags).2.Valid := by
  unfold Mesh.setTags
  split
  · rename_i htags
    exact ⟨hm.dim, htags, hm.whole, hm.inRange, hm.materials⟩
  · exact hm

theorem Built.valid {m : Mesh} (h : m.Built) : m.Valid := by
  induction h with
  | ofPoints h =>
    unfold Mesh.ofPoints at h
    split at h
    · rename_i hd
      cases h
      exact ⟨hd, by simp [vertexCount], by simp, by simp, by simp⟩
    · cases h
  | addGroup g _ ih =>
    cases hg : groupError? _ g with
    | none => exact addGroup_of_none hg ▸ valid_pushGroup ih hg
    | some e => exact addGroup_of_error hg ▸ ih
  | setTags tags _ ih => exact ih.setTags tags
  | addVertexSet _ _ _ ih => exact ⟨ih.dim, ih.tagged, ih.whole, ih.inRange, ih.materials⟩
  | addCellSet _ _ _ ih => exact ⟨ih.dim, ih.tagged, ih.whole, ih.inRange, ih.materials⟩

/-! ## Structured meshes -/

theorem built_ofGrid {name : String} {dim : Nat} {element : Element} {coors : List Point}
    {cells : List (List Nat)} (hd : 1 ≤ dim ∧ dim ≤ 3)
    (hl : ∀ c ∈ cells, c.length = element.vertexCount)
    (hv : ∀ c ∈ cells, ∀ v ∈ c, v < coors.length) :
    (ofGrid name dim element coors cells).Built := by
  have hwhole : cells.flatten.length % element.vertexCount = 0 := by
    rw [List.length_flatten, List.map_congr_left hl, List.map_const', List.sum_replicate_nat]
    exact Nat.mul_mod_left ..
  have hrange : ∀ v ∈ cells.flatten, v < coors.length := fun v hmem => by
    obtain ⟨c, hc, hvc⟩ := List.mem_flatten.1 hmem
    exact hv c hc v hvc
  have hpoints : ofPoints name dim coors =
      .ok ⟨name, dim, coors, List.replicate coors.length 0, [], .empty, .empty⟩ := if_pos hd
  have hbuilt := (Built.ofPoints hpoints).addGroup ⟨1, element, cells.flatten⟩
  rwa [addGroup_of_none (groupError?_eq_none_iff.2 ⟨hwhole, hrange, List.not_mem_nil⟩)] at hbuilt

/-- A corner of a grid lies in a row of `n + 1` corners. -/
theorem corner_lt {n m i j : Nat} (hi : i ≤ n) (hj : j ≤ m) :
    j * (n + 1) + i < (m + 1) * (n + 1) := by
  have := Nat.mul_le_mul_right (n + 1) hj
  rw [Nat.add_one_mul]
  omega

theorem length_grid {α : Type} {f : Nat → Nat → α} {m n : Nat} :
    ((List.range m).flatMap fun j => (List.range n).map fun i => f i j).length = m * n := by
  simp [List.length_flatMap, List.map_const']

theorem built_unitSquare (nx ny : Nat) : (unitSquare nx ny).Built := by
  unfold unitSquare
  refine built_ofGrid (by decide) (fun c hc => ?_) fun c hc v hv => ?_
  · simp only [List.mem_flatMap, List.mem_map] at hc
    obtain ⟨j, -, i, -, rfl⟩ := hc
    rfl
  · simp only [List.mem_flatMap, List.mem_map, List.mem_range] at hc
    obtain ⟨j, hj, i, hi, rfl⟩ := hc
    rw [length_grid]
    simp only [squareCell, List.mem_cons, List.not_mem_nil, or_false] at hv
    obtain rfl | rfl | rfl | rfl := hv
    · exact corner_lt (Nat.le_of_lt hi) (Nat.le_of_lt hj)
    · exact corner_lt (i := i + 1) hi (Nat.le_of_lt hj)
    · exact corner_lt (i := i + 1) hi hj
    · exact corner_lt (Nat.le_of_lt hi) hj

theorem built_unitCube (n : Nat) : (unitCube n).Built := by
  unfold unitCube
  refine built_ofGrid (by decide) (fun c hc => ?_) fun c hc v hv => ?_
  · simp only [List.mem_flatMap, List.mem_map] at hc
    obtain ⟨k, -, j, -, i, -, rfl⟩ := hc
    rfl
  · simp only [List.mem_flatMap, List.mem_map, List.mem_range] at hc
    obtain ⟨k, hk, j, hj, i, hi, rfl⟩ := hc
    have hcorner {i j k : Nat} (hi : i ≤ max n 1) (hj : j ≤ max n 1) (hk : k ≤ max n 1) :
        k * ((max n 1 + 1) * (max n 1 + 1)) + j * (max n 1 + 1) + i <
          (max n 1 + 1) * ((max n 1 + 1) * (max n 1 + 1)) := by
      have h := corner_lt hi hj
      have := Nat.mul_le_mul_right ((max n 1 + 1) * (max n 1 + 1)) hk
      rw [Nat.add_one_mul (max n 1) ((max n 1 + 1) * (max n 1 + 1))]
      omega
    rw [List.length_flatMap]
    simp only [length_grid, List.map_const', List.length_range, List.sum_replicate_nat]
    simp only [cubeCell, List.mem_cons, List.not_mem_nil, or_false] at hv
    obtain rfl | rfl | rfl | rfl | rfl | rfl | rfl | rfl := hv <;> apply hcorner <;> omega

end Mesh

end Subdomain

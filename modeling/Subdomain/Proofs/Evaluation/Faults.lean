import Subdomain.Proofs.Evaluation.Indices
import Subdomain.Proofs.Predicate.Selecting
import Subdomain.Proofs.Region.RoundTrip

/-!
# Faults

Next to settled regions on a valid mesh everything that a leaf selects is in the mesh,
so the region of the leaf can be completed: a leaf fails only for what it names
(`fault_evalLeaf`). Its region is settled, and so are the operands of every operator;
they can be combined, save on faces where there are none. So a run fails at a leaf or
at an operator on faces (`runFrom_eq_error`, `combine_eq_error`).
-/

namespace Subdomain

namespace SortedSet

variable {α : Type} [LinearKey α] {s : SortedSet α} {a : α}

theorem eq_empty_of_min? (h : s.min? = none) : s = ∅ := by
  ext a
  refine iff_of_false (fun ha => ?_) (not_mem_empty a)
  have hnil : s.toList = [] := List.head?_eq_none_iff.1 h
  exact List.not_mem_nil (hnil ▸ mem_toList.2 ha)

theorem mem_of_min? (h : s.min? = some a) : a ∈ s := List.mem_of_mem_head? h

end SortedSet

namespace Context

open Selection

variable {x : Context}

/-! ## What leaves select is in the mesh -/

theorem lt_of_vertices {is : List Int} {s : IdSet} (h : x.vertices is = .ok s) :
    ∀ v ∈ s, v < x.mesh.vertexCount := by
  obtain ⟨vs, hvs, hs⟩ := exists_ok_of_bind h
  cases hs
  intro v hv
  obtain ⟨i, -, hi⟩ := exists_ok_of_mapM hvs (SortedSet.mem_ofList.1 hv)
  exact (vertex_eq_ok_iff.1 hi).2

theorem lt_of_mem_verticesTagged (hm : x.mesh.Valid) {tag : Int} :
    ∀ v ∈ x.verticesTagged tag, v < x.mesh.vertexCount := by
  intro v hv
  simp only [verticesTagged, SortedSet.mem_ofList, List.mem_map, List.mem_filter, Prod.exists,
    List.mem_zipIdx_iff_getElem?] at hv
  obtain ⟨t, i, ⟨ht, -⟩, rfl⟩ := hv
  rw [← hm.tagged]
  exact (List.getElem?_eq_some_iff.1 ht).1

theorem lt_of_select {p : Predicate} {vs : List Nat}
    (h : p.select x.mesh.dim x.mesh.coors = .ok vs) : ∀ v ∈ vs, v < x.mesh.vertexCount := by
  intro v hv
  obtain ⟨-, us, hus, hmem⟩ | ⟨-, f, hf⟩ := p.select_spec x.mesh.dim x.mesh.coors
  · cases h.symm.trans hus
    obtain ⟨q, hq, -⟩ := (hmem v).1 hv
    exact (List.getElem?_eq_some_iff.1 hq).1
  · cases h.symm.trans hf

theorem has_of_cellsOfMaterial {i : Int} {s : EntitySet} (h : x.cellsOfMaterial i = .ok s) :
    ∀ e ∈ s, x.topology.Has .cell e := by
  unfold cellsOfMaterial at h
  split at h
  · cases h
  · rename_i ig _
    cases h
    intro e he
    obtain ⟨j, hj, rfl⟩ := List.mem_map.1 (SortedSet.mem_ofList.1 he)
    rw [List.mem_range] at hj
    cases hg : x.topology.group? ig with
    | none =>
      rw [hg] at hj
      cases hj
    | some g =>
      rw [hg] at hj
      exact ⟨g, hg, hj⟩

section

variable (ht : x.topology = .ofMesh x.mesh)
include ht

theorem has_of_cells {is : List Int} {s : EntitySet} (h : x.cells is = .ok s) :
    ∀ e ∈ s, x.topology.Has .cell e := by
  obtain ⟨cs, hcs, hs⟩ := exists_ok_of_bind h
  cases hs
  intro e he
  obtain ⟨i, -, hi⟩ := exists_ok_of_mapM hcs (SortedSet.mem_ofList.1 he)
  rw [ht]
  exact (cell_eq_ok_iff.1 hi).1.has

theorem has_of_groupCell {p : Int × Int} {e : Entity} (h : x.groupCell p = .ok e) :
    x.topology.Has .cell e := by
  rw [ht]
  exact ((groupCell_eq_ok_iff ht).1 h).1.has

end

theorem mem_surface {e : Entity} : e ∈ x.surface ↔
    ∃ ids, x.topology.surface[e.group]? = some ids ∧ e.index ∈ ids := by
  obtain ⟨ig, i⟩ := e
  simp only [surface, SortedSet.mem_ofList, List.mem_flatMap, List.mem_map, Prod.exists,
    List.mem_zipIdx_iff_getElem?, Entity.mk.injEq]
  constructor
  · rintro ⟨ids, j, hids, i', hi, rfl, rfl⟩
    exact ⟨ids, hids, hi⟩
  · rintro ⟨ids, hids, hi⟩
    exact ⟨ids, ig, hids, i, hi, rfl, rfl⟩

theorem has_of_mem_surface {m : Mesh} (hx : x.topology = .ofMesh m) {e : Entity}
    (he : e ∈ x.surface) : (Topology.ofMesh m).Has .facet e := by
  obtain ⟨ids, hids, hi⟩ := mem_surface.1 he
  rw [hx, Topology.ofMesh, List.getElem?_map] at hids
  obtain ⟨g, hg, rfl⟩ := Option.map_eq_some_iff.1 hids
  refine ⟨g, hg, ?_⟩
  unfold Topology.onceUsed at hi
  split at hi
  · exact List.mem_range.1 (List.mem_filter.1 hi).1
  · cases hi

/-! ## The faults of a leaf -/

variable (x) in
/-- What a leaf can report next to settled regions. -/
inductive Fault : Leaf → RegionError → Prop where
  | noRegion {l : Leaf} {n : String} :
      l.reference? = some n → n ∉ x.regions.names → Fault l (.regionNotFound n)
  | noVertices {n : String} {r : Region} : x.regions.get? n = some r → r.vertices = ∅ →
      Fault (.vertexOfRegion n) (.missingEntities n .vertex)
  | noCells : x.topology.topDim = 0 → Fault .surface (.unsupported Leaf.surface.text .cells)
  | predicate {p : Predicate} {f : Predicate.SelectFault} :
      p.select x.mesh.dim x.mesh.coors = .error f → Fault (.verticesIn p) (.predicate p.text f)
  | noFunction {l : Leaf} {f : String} : l = .verticesBy f ∨ l = .cellsBy f →
      x.functions.get? f = none → Fault l (.undefinedFunction f)
  | noVertexSet {n : String} :
      x.mesh.vertexSets.get? n = none → Fault (.verticesOfSet n) (.undefinedVertexSet n)
  | noCellSet {n : String} :
      x.mesh.cellSets.get? n = none → Fault (.cellsOfSet n) (.undefinedCellSet n)
  | noMaterial {i : Int} :
      x.mesh.groupOfMaterial? i = none → Fault (.cellsOfGroup i) (.undefinedGroup i)
  | vertexIndex {l : Leaf} {i : Int} : ¬ (0 ≤ i ∧ i < x.mesh.vertexCount) →
      Fault l (.invalidVertexIndex i x.mesh.vertexCount)
  | cellIndex {l : Leaf} {i : Int} {n : Nat} :
      ¬ (0 ≤ i ∧ i < n) → Fault l (.invalidCellIndex i n)
  | groupIndex {ps : List (Int × Int)} {i j : Int} :
      (i, j) ∈ ps → ¬ (0 ≤ i ∧ i < x.topology.groupCount) →
      Fault (.groupCells ps) (.invalidGroupIndex i x.topology.groupCount)

variable {l : Leaf}

theorem raises_get {n : String} (hl : l.reference? = some n) :
    Raises (x.Fault l) (x.regions.get n) := by
  unfold Collection.get
  split
  · exact raises_ok
  · rename_i hn
    exact raises_error (.noRegion hl (NameTable.get?_eq_none_iff.1 hn))

theorem raises_find {f : String} (hl : l = .verticesBy f ∨ l = .cellsBy f) :
    Raises (x.Fault l) (x.functions.find f) := by
  unfold Functions.find
  split
  · exact raises_ok
  · rename_i hf
    exact raises_error (.noFunction hl hf)

theorem raises_vertices {is : List Int} : Raises (x.Fault l) (x.vertices is) := by
  refine (raises_mapM fun i _ e he => ?_).bind fun _ _ => raises_ok
  obtain ⟨hi⟩ := vertex_eq_error_iff.1 he
  exact .vertexIndex hi

theorem raises_cells (ht : x.topology = .ofMesh x.mesh) {is : List Int} :
    Raises (x.Fault l) (x.cells is) := by
  refine (raises_mapM fun i _ e he => ?_).bind fun _ _ => raises_ok
  obtain ⟨hi⟩ := (cell_eq_error_iff ht).1 he
  exact .cellIndex hi

theorem raises_groupCells {ps : List (Int × Int)} :
    Raises (x.Fault (.groupCells ps)) (ps.mapM x.groupCell) := by
  refine raises_mapM fun p hp => ?_
  unfold groupCell
  split
  · rename_i hg
    refine raises_error (.groupIndex hp fun ⟨hnonneg, hlt⟩ => ?_)
    rw [if_pos hnonneg, Topology.group?, List.getElem?_eq_none_iff] at hg
    unfold Topology.groupCount at hlt
    omega
  · split
    · exact raises_ok
    · rename_i hout
      exact raises_error (.cellIndex hout)

/-- The region of a leaf can be completed if all that it selects is there. -/
theorem raises_made {P : RegionError → Prop} {k : Kind} {e : Extent}
    (h : x.topology.error? k e = none) : Raises P (x.made l k e) := by
  obtain ⟨r, hr, -⟩ := exists_made h
  rw [hr]
  exact raises_ok

theorem raises_madeCells {P : RegionError → Prop} {s : EntitySet}
    (h : ∀ e ∈ s, x.topology.Has .cell e) : Raises P (x.made l .cell { cells := s }) :=
  raises_made ((Topology.error?_eq_none_iff (by decide)).2 h)

section

variable (ht : x.topology = .ofMesh x.mesh)
include ht

theorem raises_madeVertices {P : RegionError → Prop} {s : IdSet}
    (h : ∀ v ∈ s, v < x.mesh.vertexCount) : Raises P (x.made l .vertex { vertices := s }) := by
  refine raises_made (Topology.error?_vertex_eq_none_iff.2 fun v hv => ?_)
  rw [ht]
  exact h v hv

/-- Next to settled regions a leaf fails only with one of its faults. -/
theorem fault_evalLeaf (hm : x.mesh.Valid) (hx : x.regions.Settled x.topology) :
    Raises (x.Fault l) (x.evalLeaf l) := by
  have hsound : x.topology.Sound := ht ▸ Topology.sound_ofMesh hm
  cases l with
  | region n => exact raises_get rfl
  | copy n =>
    refine (raises_get rfl).bind fun r hr => ?_
    rw [Region.ensureComplete, (hx n r (Collection.get_eq_ok_iff.1 hr)).isComplete, if_pos rfl]
    exact raises_ok
  | all =>
    refine raises_madeVertices ht fun v hv => ?_
    exact List.mem_range.1 (SortedSet.mem_ofList.1 hv)
  | surface =>
    rw [evalLeaf]
    split
    · rename_i htop
      exact raises_error (.noCells htop)
    · refine raises_made ((Topology.error?_eq_none_iff (by decide)).2 fun e he => ?_)
      rw [ht]
      exact has_of_mem_surface ht he
  | verticesIn p =>
    rw [evalLeaf]
    split
    · rename_i vs hvs
      exact raises_madeVertices ht fun v hv => lt_of_select hvs v (SortedSet.mem_ofList.1 hv)
    · rename_i f hf
      exact raises_error (.predicate hf)
  | verticesInList is | vertices is =>
    exact raises_vertices.bind fun s hs => raises_madeVertices ht (lt_of_vertices hs)
  | verticesBy f =>
    exact (raises_find (.inl rfl)).bind fun _ _ => raises_vertices.bind fun s hs =>
      raises_madeVertices ht (lt_of_vertices hs)
  | verticesOfGroup tag => exact raises_madeVertices ht (lt_of_mem_verticesTagged hm)
  | verticesOfSet n =>
    rw [evalLeaf]
    split
    · rename_i hn
      exact raises_error (.noVertexSet hn)
    · exact raises_vertices.bind fun s hs => raises_madeVertices ht (lt_of_vertices hs)
  | vertexOfRegion n =>
    refine (raises_get rfl).bind fun r hr => ?_
    have hr := Collection.get_eq_ok_iff.1 hr
    split
    · rename_i hmin
      exact raises_error (.noVertices hr (SortedSet.eq_empty_of_min? hmin))
    · rename_i v hmin
      refine raises_madeVertices ht fun w hw => ?_
      obtain rfl := List.mem_singleton.1 (SortedSet.mem_ofList.1 hw)
      have hlt := ((hx n r hr).inRange hsound).extent.vertices w (SortedSet.mem_of_min? hmin)
      rwa [ht] at hlt
  | cells is => exact (raises_cells ht).bind fun s hs => raises_madeCells (has_of_cells ht hs)
  | groupCells ps =>
    refine raises_groupCells.bind fun cs hcs => raises_madeCells fun e he => ?_
    obtain ⟨p, -, hp⟩ := exists_ok_of_mapM hcs (SortedSet.mem_ofList.1 he)
    exact has_of_groupCell ht hp
  | cellsBy f =>
    exact (raises_find (.inr rfl)).bind fun _ _ => (raises_cells ht).bind fun s hs =>
      raises_madeCells (has_of_cells ht hs)
  | cellsOfGroup i =>
    refine Raises.bind ?_ fun s hs => raises_madeCells (has_of_cellsOfMaterial hs)
    unfold cellsOfMaterial
    split
    · rename_i hi
      exact raises_error (.noMaterial hi)
    · exact raises_ok
  | cellsOfSet n =>
    rw [evalLeaf]
    split
    · rename_i hn
      exact raises_error (.noCellSet hn)
    · exact (raises_cells ht).bind fun s hs => raises_madeCells (has_of_cells ht hs)

end

/-! ## The faults of a run -/

variable (x) in
/-- From the stack `s` a program comes to the instruction `i`, and finds the stack `s'`. -/
def Arrives (s : List Region) (p : Program) (i : Instr) (s' : List Region) : Prop :=
  ∃ q rest, p = q ++ i :: rest ∧ x.Reaches q s s'

variable {s s' : List Region} {p : Program} {i : Instr}

theorem Arrives.mem (h : x.Arrives s p i s') : i ∈ p := by
  obtain ⟨q, rest, rfl, -⟩ := h
  exact List.mem_append_right _ List.mem_cons_self

theorem arrives_here : x.Arrives s (i :: p) i s := ⟨[], p, rfl, .done s⟩

theorem Arrives.push {r : Region} (h : x.Arrives (r :: s) p i s') (hl : x.evalLeaf l = .ok r) :
    x.Arrives s (.push l :: p) i s' := by
  obtain ⟨q, rest, rfl, hq⟩ := h
  exact ⟨.push l :: q, rest, rfl, .push hl hq⟩

theorem Arrives.apply {o : SetOperator} {a b r : Region} (h : x.Arrives (r :: s) p i s')
    (hc : Region.combine x.topology o a b = .ok r) :
    x.Arrives (b :: a :: s) (.apply o :: p) i s' := by
  obtain ⟨q, rest, rfl, hq⟩ := h
  exact ⟨.apply o :: q, rest, rfl, .apply hc hq⟩

/-- What a run finds on the stack is settled. -/
theorem settled_arrives (hx : x.regions.Settled x.topology) (hs : ∀ r ∈ s, r.Settled x.topology)
    (h : x.Arrives s p i s') : ∀ r ∈ s', r.Settled x.topology := by
  obtain ⟨q, rest, -, hq⟩ := h
  induction hq with
  | done => exact hs
  | push hl _ ih => exact ih (List.forall_mem_cons.2 ⟨settled_evalLeaf hx hl, hs⟩)
  | apply hc _ ih =>
    exact ih (List.forall_mem_cons.2 ⟨Region.settled_of_combine hc, fun v hv =>
      hs v (List.mem_cons_of_mem _ (List.mem_cons_of_mem _ hv))⟩)

variable (x) in
/-- Where a run from the stack `s` comes by the error `e`. -/
inductive Fails (s : List Region) (p : Program) (e : RegionError) : Prop where
  | malformed {n : Nat} : e = .malformedExpression n → Fails s p e
  | leaf {l : Leaf} {s' : List Region} :
      x.Arrives s p (.push l) s' → x.evalLeaf l = .error e → Fails s p e
  | operator {o : SetOperator} {a b : Region} {s' : List Region} :
      x.Arrives s p (.apply o) (b :: a :: s') → Region.combine x.topology o a b = .error e →
      Fails s p e

theorem Fails.mono {t : List Region} {q : Program} {e : RegionError} (h : x.Fails t q e)
    (hsub : ∀ i s', x.Arrives t q i s' → x.Arrives s p i s') : x.Fails s p e := by
  cases h with
  | malformed he => exact .malformed he
  | leaf ha hl => exact .leaf (hsub _ _ ha) hl
  | operator ha hc => exact .operator (hsub _ _ ha) hc

/-- A run that fails has come to a leaf or to an operator that fails, unless the program is
malformed. -/
theorem runFrom_eq_error {e : RegionError} (h : x.runFrom s p = .error e) : x.Fails s p e := by
  induction p generalizing s with
  | nil =>
    by_cases hl : s.length = 1
    · obtain ⟨r, rfl⟩ := List.length_eq_one_iff.1 hl
      cases h
    · rw [runFrom_nil hl] at h
      exact .malformed (Except.error.inj h).symm
  | cons i p ih =>
    cases i with
    | push l =>
      rw [runFrom_push] at h
      cases hl : x.evalLeaf l with
      | error e' =>
        rw [hl] at h
        obtain rfl := Except.error.inj h
        exact .leaf arrives_here hl
      | ok r =>
        rw [hl] at h
        exact (ih h).mono fun i s' ha => ha.push hl
    | apply o =>
      match s with
      | [] | [_] =>
        rw [runFrom_apply_short (by simp)] at h
        exact .malformed (Except.error.inj h).symm
      | b :: a :: s =>
        rw [runFrom_apply] at h
        cases hc : Region.combine x.topology o a b with
        | error e' =>
          rw [hc] at h
          obtain rfl := Except.error.inj h
          exact .operator arrives_here hc
        | ok r =>
          rw [hc] at h
          exact (ih h).mono fun i s' ha => ha.apply hc

end Context

end Subdomain

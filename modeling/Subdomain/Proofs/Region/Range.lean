import Subdomain.Region.Completion
import Subdomain.Proofs.Topology.OfMesh

/-!
# Ranges

An entity is in range if its group has it. The membership lemmas say what each
step of a completion selects; together they show that a completion of a set in
range is in range as a whole (`inRange_derive`).
-/

namespace Subdomain

namespace Topology

variable {t : Topology}

/-- The topology has the entity `e` of kind `k`. -/
def Has (t : Topology) (k : Kind) (e : Entity) : Prop :=
  ∃ g, t.group? e.group = some g ∧ e.index < g.count k

theorem entityError?_eq_none_iff {k : Kind} {e : Entity} :
    t.entityError? k e = none ↔ t.Has k e := by
  unfold entityError? Has
  cases t.group? e.group with
  | none => simp
  | some g =>
    simp only [Option.some.injEq, exists_eq_left']
    split
    · rename_i h
      simp [h]
    · rename_i h
      split <;> simp [h]

theorem error?_vertex_eq_none_iff {x : Extent} :
    t.error? .vertex x = none ↔ ∀ v ∈ x.vertices, v < t.vertexCount := by
  have hfind : x.vertices.toList.find? (t.vertexCount ≤ ·) = none ↔
      ∀ v ∈ x.vertices, v < t.vertexCount := by
    simp [List.find?_eq_none, SortedSet.mem_toList]
  rw [← hfind]
  unfold error?
  cases x.vertices.toList.find? (t.vertexCount ≤ ·) <;> simp

theorem error?_eq_none_iff {k : Kind} (hk : k ≠ .vertex) {x : Extent} :
    t.error? k x = none ↔ ∀ e ∈ x.entities k, t.Has k e := by
  cases k with
  | vertex => exact absurd rfl hk
  | edge | face | facet | cell =>
    simp [error?, entityError?_eq_none_iff, ← SortedSet.mem_toList]

end Topology

def RegionError.IsIndexError : RegionError → Prop
  | invalidVertexIndex .. | invalidCellIndex .. | invalidEntityIndex .. | invalidGroupIndex .. =>
    True
  | _ => False

namespace Topology

variable {t : Topology}

theorem isIndexError_of_entityError? {k : Kind} {e : Entity} {err : RegionError}
    (h : t.entityError? k e = some err) : err.IsIndexError := by
  unfold entityError? at h
  split at h
  · cases h
    trivial
  · simp only at h
    split at h
    · cases h
    · split at h <;> cases h <;> trivial

/-- A set is refused for an index only. -/
theorem isIndexError_of_error? {k : Kind} {x : Extent} {err : RegionError}
    (h : t.error? k x = some err) : err.IsIndexError := by
  unfold error? at h
  cases k with
  | vertex =>
    obtain ⟨v, -, rfl⟩ := Option.map_eq_some_iff.1 h
    trivial
  | edge | face | facet | cell =>
    obtain ⟨e, -, he⟩ := List.exists_of_findSome?_eq_some h
    exact isIndexError_of_entityError? he

/-! ## What the steps of a completion select -/

theorem mem_incidentVertices {k : Kind} {s : EntitySet} {v : Nat} :
    v ∈ t.incidentVertices k s ↔ ∃ e ∈ s, v ∈ t.entityVertices k e := by
  simp [incidentVertices, SortedSet.mem_toList]

theorem mem_entityVertices {k : Kind} {e : Entity} {v : Nat} :
    v ∈ t.entityVertices k e ↔
      ∃ g vs, t.group? e.group = some g ∧ g.entity? k e.index = some vs ∧ v ∈ vs := by
  unfold entityVertices
  cases t.group? e.group with
  | none => simp
  | some g => cases hvs : g.entity? k e.index <;> simp [hvs]

theorem mem_entitiesWhere {k : Kind} {p : List Nat → Bool} {e : Entity} :
    e ∈ t.entitiesWhere k p ↔ ∃ g ∈ t.groups, g.index = e.group ∧
      ∃ vs, (g.items k)[e.index]? = some vs ∧ p vs = true := by
  obtain ⟨ig, i⟩ := e
  simp only [entitiesWhere, SortedSet.mem_ofList, List.mem_flatMap, List.mem_map, List.mem_filter,
    Prod.exists, List.mem_zipIdx_iff_getElem?, Entity.mk.injEq, GroupTopology.items]
  constructor
  · rintro ⟨g, hg, vs, j, ⟨hvs, hp⟩, hig, rfl⟩
    exact ⟨g, hg, hig, vs, hvs, hp⟩
  · rintro ⟨g, hg, hig, vs, hvs, hp⟩
    exact ⟨g, hg, vs, i, ⟨hvs, hp⟩, hig, rfl⟩

theorem mem_spanned {k : Kind} {vertices : IdSet} {e : Entity} :
    e ∈ t.spanned k vertices ↔ ∃ g ∈ t.groups, g.index = e.group ∧
      ∃ vs, (g.items k)[e.index]? = some vs ∧ ∀ v ∈ vs, v ∈ vertices := by
  simp [spanned, mem_entitiesWhere]

theorem mem_entitiesOfCells {k : Kind} {cells : EntitySet} {e : Entity} :
    e ∈ t.entitiesOfCells k cells ↔ ∃ c ∈ cells, c.group = e.group ∧
      ∃ g table, t.group? e.group = some g ∧ g.table? k = some table ∧
        e.index ∈ table.ofCell c.index := by
  obtain ⟨ig, i⟩ := e
  simp only [entitiesOfCells, SortedSet.mem_ofList, List.mem_flatMap, List.mem_map,
    Entity.mk.injEq, SortedSet.mem_toList]
  constructor
  · rintro ⟨c, hc, j, hj, rfl, rfl⟩
    cases hg : (t.group? c.group).bind (·.table? k) with
    | none => simp [hg] at hj
    | some table =>
      rw [hg, Option.elim_some] at hj
      obtain ⟨g, hg, htab⟩ := Option.bind_eq_some_iff.1 hg
      exact ⟨c, hc, rfl, g, table, hg, htab, hj⟩
  · rintro ⟨c, hc, rfl, g, table, hg, htab, hi⟩
    exact ⟨c, hc, i, by simpa [hg, htab] using hi, rfl, rfl⟩

theorem mem_ownersOf {k : Kind} {s : EntitySet} {c : Entity} :
    c ∈ t.ownersOf k s ↔ ∃ e ∈ s, e.group = c.group ∧
      ∃ g table, t.group? c.group = some g ∧ g.table? k = some table ∧
        c.index ∈ table.ownersOf e.index := by
  obtain ⟨ig, i⟩ := c
  simp only [ownersOf, SortedSet.mem_ofList, List.mem_flatMap, List.mem_map, Entity.mk.injEq,
    SortedSet.mem_toList]
  constructor
  · rintro ⟨e, he, j, hj, rfl, rfl⟩
    cases hg : (t.group? e.group).bind (·.table? k) with
    | none => simp [hg] at hj
    | some table =>
      rw [hg, Option.elim_some] at hj
      obtain ⟨g, hg, htab⟩ := Option.bind_eq_some_iff.1 hg
      exact ⟨e, he, rfl, g, table, hg, htab, hj⟩
  · rintro ⟨e, he, rfl, g, table, hg, htab, hi⟩
    exact ⟨e, he, i, by simpa [hg, htab] using hi, rfl, rfl⟩

theorem mem_groupsUsing {vertices : IdSet} {ig : Nat} :
    ig ∈ t.groupsUsing vertices ↔
      ∃ g ∈ t.groups, g.index = ig ∧ ∃ v ∈ vertices, v ∈ g.vertices := by
  simp only [groupsUsing, SortedSet.mem_ofList, List.mem_map, List.mem_filter, List.any_eq_true,
    GroupTopology.hasVertex, decide_eq_true_eq, SortedSet.mem_toList]
  constructor
  · rintro ⟨g, ⟨hg, hv⟩, rfl⟩
    exact ⟨g, hg, rfl, hv⟩
  · rintro ⟨g, hg, rfl, hv⟩
    exact ⟨g, ⟨hg, hv⟩, rfl⟩

end Topology

/-! ## The sets of a completion -/

namespace Topology

variable {t : Topology} {x : Extent}

theorem vertices_derive {k : Kind} (hk : k ≠ .vertex) :
    (t.derive k x).vertices = t.incidentVertices k (x.entities k) := by
  cases k with
  | vertex => exact absurd rfl hk
  | edge | face | facet | cell => rfl

theorem entities_derive_vertex {k : Kind} (hk : k ≠ .vertex) :
    (t.derive .vertex x).entities k = t.spanned k x.vertices := by
  cases k with
  | vertex => exact absurd rfl hk
  | edge | face | facet | cell => rfl

theorem entities_derive_self {k : Kind} : (t.derive k x).entities k = if k = .vertex then
    t.spanned .cell x.vertices else x.entities k := by
  cases k <;> rfl

theorem entities_derive_cell {k : Kind} (hk : k ≠ .vertex) (hc : k ≠ .cell) :
    (t.derive .cell x).entities k = t.entitiesOfCells k x.cells := by
  cases k with
  | vertex => exact absurd rfl hk
  | cell => exact absurd rfl hc
  | edge | face | facet => rfl

theorem cells_derive_table {k : Kind} (hk : k ≠ .vertex) (hc : k ≠ .cell) :
    (t.derive k x).cells = t.ownersOf k (x.entities k) := by
  cases k with
  | vertex => exact absurd rfl hk
  | cell => exact absurd rfl hc
  | edge | face | facet => rfl

theorem entities_derive_table {k k' : Kind} (hk : k ≠ .vertex) (hc : k ≠ .cell)
    (hk' : k' ≠ .vertex) (hc' : k' ≠ .cell) (hne : k' ≠ k) :
    (t.derive k x).entities k' = t.spanned k' (t.incidentVertices k (x.entities k)) := by
  cases k <;> cases k' <;> first | contradiction | rfl

end Topology

/-! ## Extents in range -/

structure Extent.InRange (t : Topology) (x : Extent) : Prop where
  vertices : ∀ v ∈ x.vertices, v < t.vertexCount
  entities : ∀ k ≠ .vertex, ∀ e ∈ x.entities k, t.Has k e

namespace Topology

variable {t : Topology} (ht : t.Sound)
include ht

theorem Sound.lt_of_mem_incidentVertices {k : Kind} {s : EntitySet} {v : Nat}
    (hv : v ∈ t.incidentVertices k s) : v < t.vertexCount := by
  obtain ⟨e, -, hv⟩ := mem_incidentVertices.1 hv
  obtain ⟨g, vs, hg, hvs, hv⟩ := mem_entityVertices.1 hv
  exact ht.conn _ g hg v (ht.mem_conn_of_entity? hg hvs hv)

theorem Sound.has_of_mem_spanned {k : Kind} {vertices : IdSet} {e : Entity}
    (he : e ∈ t.spanned k vertices) : t.Has k e := by
  obtain ⟨g, hg, hig, vs, hvs, -⟩ := mem_spanned.1 he
  refine ⟨g, hig ▸ ht.group?_of_mem hg, ?_⟩
  rw [← GroupTopology.length_items]
  exact (List.getElem?_eq_some_iff.1 hvs).1

theorem Sound.has_of_mem_entitiesOfCells {k : Kind} {cells : EntitySet} {e : Entity}
    (he : e ∈ t.entitiesOfCells k cells) : t.Has k e := by
  obtain ⟨c, -, -, g, table, hg, htab, hi⟩ := mem_entitiesOfCells.1 he
  obtain ⟨positions, hl⟩ := ht.tables _ g k table hg htab
  refine ⟨g, hg, ?_⟩
  rw [GroupTopology.count, htab]
  exact hl.lt_of_mem_ofCell hi

theorem Sound.has_of_mem_ownersOf {k : Kind} {s : EntitySet} {c : Entity}
    (hc : c ∈ t.ownersOf k s) : t.Has .cell c := by
  obtain ⟨e, -, -, g, table, hg, htab, hi⟩ := mem_ownersOf.1 hc
  obtain ⟨positions, hl⟩ := ht.tables _ g k table hg htab
  refine ⟨g, hg, ?_⟩
  rw [GroupTopology.count, GroupTopology.table?_eq_none_iff.2 (.inr rfl)]
  have := hl.lt_of_mem_ownersOf hi
  rwa [GroupTopology.cells, length_pieces] at this

theorem Sound.inRange_derive {k : Kind} {x : Extent} (h : t.error? k x = none) :
    (t.derive k x).InRange t where
  vertices v hv := by
    by_cases hk : k = .vertex
    · subst hk
      exact error?_vertex_eq_none_iff.1 h v hv
    · rw [vertices_derive hk] at hv
      exact ht.lt_of_mem_incidentVertices hv
  entities k' hk' e he := by
    by_cases hk : k = .vertex
    · subst hk
      rw [entities_derive_vertex hk'] at he
      exact ht.has_of_mem_spanned he
    by_cases hself : k' = k
    · subst hself
      rw [entities_derive_self, if_neg hk] at he
      exact (error?_eq_none_iff hk).1 h e he
    by_cases hc : k = .cell
    · subst hc
      rw [entities_derive_cell hk' hself] at he
      exact ht.has_of_mem_entitiesOfCells he
    by_cases hc' : k' = .cell
    · subst hc'
      change e ∈ (t.derive k x).cells at he
      rw [cells_derive_table hk hc] at he
      exact ht.has_of_mem_ownersOf he
    · rw [entities_derive_table hk hc hk' hc' hself] at he
      exact ht.has_of_mem_spanned he

end Topology

end Subdomain

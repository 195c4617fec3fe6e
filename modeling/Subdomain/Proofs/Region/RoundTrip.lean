import Subdomain.Proofs.Region.Combination
import Subdomain.Proofs.Region.Tidy

/-!
# Conversions and round trips

A region whose set is in the mesh can be converted to every kind that the domain has
(`exists_setKind`). The vertices of a set of entities lie in a set of vertices just if
the entities are among those that the vertices span: the two ways to convert are
adjoint. So vertices can only be lost on the way to entities and back, entities can
only be gained on the way to vertices and back, and a second round trip changes
nothing (`vertices_adjoint`).
-/

namespace Subdomain

namespace Extent

variable {k : Kind} {x y : Extent}

theorem entities_part (hk : k ≠ .vertex) : (x.part k).entities k = x.entities k := by
  cases k with
  | vertex => exact absurd rfl hk
  | edge | face | facet | cell => rfl

theorem part_congr (hk : k ≠ .vertex) (h : x.entities k = y.entities k) :
    x.part k = y.part k := by
  have hpart (z : Extent) : z.part k = only k (z.entities k) := by
    cases k with
    | vertex => exact absurd rfl hk
    | edge | face | facet | cell => rfl
  rw [hpart, hpart, h]

theorem entities_only {s : EntitySet} (hk : k ≠ .vertex) : (only k s).entities k = s := by
  cases k with
  | vertex => exact absurd rfl hk
  | edge | face | facet | cell => rfl

end Extent

theorem Mesh.holds_iff {m : Mesh} {k : Kind} {x : Extent} (hk : k ≠ .vertex) :
    m.Holds k x ↔ ∀ e ∈ x.entities k, ∃ vs, m.vertices? k e = some vs := by
  cases k with
  | vertex => exact absurd rfl hk
  | edge | face | facet | cell => exact .rfl

namespace Topology

variable {t : Topology} {m : Mesh} {k : Kind} {x : Extent} {s : EntitySet} {vertices : IdSet}

theorem supports_vertex : t.Supports .vertex := nofun

theorem error?_part (hx : x.InRange t) : t.error? k (x.part k) = none := by
  by_cases hk : k = .vertex
  · subst hk
    exact error?_vertex_eq_none_iff.2 hx.vertices
  · rw [error?_eq_none_iff hk, Extent.entities_part hk]
    exact hx.entities k hk

/-! ## Vertices and entities -/

/-- The vertices of entities of the mesh lie in a set just if the set spans the entities. -/
theorem incidentVertices_subset_iff (hs : ∀ e ∈ s, ∃ vs, m.vertices? k e = some vs) :
    (∀ v ∈ (ofMesh m).incidentVertices k s, v ∈ vertices) ↔
      ∀ e ∈ s, e ∈ (ofMesh m).spanned k vertices := by
  simp only [mem_incidentVertices_ofMesh, mem_spanned_ofMesh]
  constructor
  · intro h e he
    obtain ⟨vs, hvs⟩ := hs e he
    exact ⟨vs, hvs, fun v hv => h v ⟨e, he, vs, hvs, hv⟩⟩
  · rintro h v ⟨e, he, vs, hvs, hv⟩
    obtain ⟨us, hus, hin⟩ := h e he
    cases hvs.symm.trans hus
    exact hin v hv

theorem exists_vertices?_of_spanned :
    ∀ e ∈ (ofMesh m).spanned k vertices, ∃ vs, m.vertices? k e = some vs := by
  intro e he
  obtain ⟨vs, hvs, -⟩ := mem_spanned_ofMesh.1 he
  exact ⟨vs, hvs⟩

/-- Spanned entities have no vertex outside the set. -/
theorem mem_of_mem_incidentVertices_spanned {v : Nat}
    (hv : v ∈ (ofMesh m).incidentVertices k ((ofMesh m).spanned k vertices)) : v ∈ vertices :=
  (incidentVertices_subset_iff exists_vertices?_of_spanned).2 (fun _ he => he) v hv

section Entities

variable (hs : ∀ e ∈ s, ∃ vs, m.vertices? k e = some vs)
include hs

/-- The vertices of entities span the entities. -/
theorem mem_spanned_incidentVertices {e : Entity} (he : e ∈ s) :
    e ∈ (ofMesh m).spanned k ((ofMesh m).incidentVertices k s) :=
  (incidentVertices_subset_iff hs).1 (fun _ hv => hv) e he

theorem incidentVertices_spanned_incidentVertices :
    (ofMesh m).incidentVertices k ((ofMesh m).spanned k ((ofMesh m).incidentVertices k s)) =
      (ofMesh m).incidentVertices k s := by
  ext v
  refine ⟨mem_of_mem_incidentVertices_spanned, fun hv => ?_⟩
  obtain ⟨e, he, hvertex⟩ := mem_incidentVertices.1 hv
  exact mem_incidentVertices.2 ⟨e, mem_spanned_incidentVertices hs he, hvertex⟩

end Entities

theorem spanned_incidentVertices_spanned :
    (ofMesh m).spanned k ((ofMesh m).incidentVertices k ((ofMesh m).spanned k vertices)) =
      (ofMesh m).spanned k vertices := by
  ext e
  refine ⟨fun he => ?_, mem_spanned_incidentVertices exists_vertices?_of_spanned⟩
  obtain ⟨vs, hvs, hin⟩ := mem_spanned_ofMesh.1 he
  exact mem_spanned_ofMesh.2
    ⟨vs, hvs, fun v hv => mem_of_mem_incidentVertices_spanned (hin v hv)⟩

end Topology

namespace Region

variable {m : Mesh} {t : Topology} {k : Kind} {r s : Region}

/-! ## Conversions -/

/-- A settled region can be converted to every kind that the domain has. -/
theorem exists_setKind (ht : t.Sound) (hr : r.Settled t) (hk : t.Supports k) :
    ∃ s, r.setKind t k = ⟨s, none⟩ ∧ s.kind = k ∧ s.extent = t.derive k r.extent := by
  have hcomplete : r.ensureComplete t = .ok r :=
    ensureComplete_eq_ok_iff.2 (.inl ⟨hr.isComplete, rfl⟩)
  unfold setKind
  rw [if_neg (Topology.supports_iff.1 hk), hcomplete]
  -- only another kind than that of the authoritative set makes anything be derived again
  by_cases hsource : k = r.source
  · refine ⟨{ r with kind := k }, if_pos hsource, rfl, ?_⟩
    rw [hsource, hr.derived]
  · have hvalid := Topology.error?_part (k := k) (hr.inRange ht).extent
    obtain ⟨s, hs, hkind, hextent⟩ := exists_complete (r := r.promote k) hvalid
    exact ⟨s, (if_neg hsource).trans (completed_eq_ok_iff.2 hs), hkind,
      hextent.trans Topology.derive_part⟩

theorem setKind_of_unsupported (hk : ¬ t.Supports k) :
    r.setKind t k = ⟨r, some (.unsupported k.name .faces)⟩ := by
  obtain ⟨hface, hf⟩ := Topology.not_supports_iff.1 hk
  unfold setKind
  rw [if_pos ⟨hface, by rw [hf]; rfl⟩]

/-- Only faces keep a settled region from being converted. -/
theorem setKind_eq_error (ht : t.Sound) (hr : r.Settled t) {e : RegionError}
    (h : (r.setKind t k).error? = some e) :
    k = .face ∧ t.hasFaces = false ∧ e = .unsupported k.name .faces := by
  by_cases hk : t.Supports k
  · obtain ⟨s, hs, -⟩ := exists_setKind ht hr hk
    rw [hs] at h
    cases h
  · obtain ⟨hface, hf⟩ := Topology.not_supports_iff.1 hk
    rw [setKind_of_unsupported hk] at h
    cases h
    exact ⟨hface, hf, rfl⟩

/-- A region whose set is in range becomes settled, with that set. -/
theorem Tidy.exists_ensureComplete (hr : r.Tidy t) (hx : t.error? r.source r.extent = none) :
    ∃ s, r.ensureComplete t = .ok s ∧ s.Settled t ∧ s.kind = r.kind ∧ s.label = r.label ∧
      s.extent.part r.kind = r.extent.part r.kind := by
  cases hc : r.isComplete with
  | true => exact ⟨r, ensureComplete_eq_ok_iff.2 (.inl ⟨hc, rfl⟩), hr.settled hc, rfl, rfl, rfl⟩
  | false =>
    obtain ⟨s, hs, hkind, hextent⟩ := exists_complete hx
    refine ⟨s, ensureComplete_eq_ok_iff.2 (.inr ⟨hc, hs⟩), settled_of_complete hr.kind hs, hkind,
      label_complete hs, ?_⟩
    rw [hextent, hr.kind, Topology.part_derive]

/-- A conversion completes the region first. -/
theorem setKind_of_ensureComplete (h : r.ensureComplete t = .ok s) (hs : s.isComplete = true)
    (hk : t.Supports k) : r.setKind t k = s.setKind t k := by
  have hagain : s.ensureComplete t = .ok s := ensureComplete_eq_ok_iff.2 (.inl ⟨hs, rfl⟩)
  unfold setKind
  rw [h, hagain, if_neg (Topology.supports_iff.1 hk), if_neg (Topology.supports_iff.1 hk)]

/-- A settled region is what its label, its kind and the set of its kind make it. -/
theorem Settled.eq (hr : r.Settled t) (hs : s.Settled t) (hlabel : r.label = s.label)
    (hkind : r.kind = s.kind) (hpart : r.extent.part r.kind = s.extent.part r.kind) : r = s := by
  have hextent : r.extent = s.extent := hr.extent_congr hs hkind hpart
  obtain ⟨-, hgroups, hshape⟩ := hr.congr hs hextent
  have hsource : r.source = s.source := by rw [← hr.kind, ← hs.kind, hkind]
  have hcomplete : r.isComplete = s.isComplete := by rw [hr.isComplete, hs.isComplete]
  obtain ⟨name, definition, parent, kind, source, isComplete, extent, groups, shape⟩ := r
  cases hlabel
  cases hkind
  cases hsource
  cases hcomplete
  cases hextent
  cases hgroups
  cases hshape
  rfl

theorem Settled.entities_eq (hr : r.Settled t) (hkind : r.kind = .vertex) (hv : k ≠ .vertex) :
    r.entities k = t.spanned k r.vertices := by
  rw [entities, hr.extent_eq, hkind]
  exact Topology.entities_derive_vertex hv

theorem Settled.vertices_eq (hr : r.Settled t) (hkind : r.kind = k) (hv : k ≠ .vertex) :
    r.vertices = t.incidentVertices k (r.entities k) := by
  have hderived : t.derive k r.extent = r.extent := by
    rw [← hkind, hr.kind, hr.derived]
  rw [vertices, entities, ← Topology.vertices_derive hv, hderived]

/-! ## Round trips -/

/-- Converts a region to a kind and back to its own. -/
def roundTrip (t : Topology) (k : Kind) (r : Region) : Except RegionError Region := do
  let s ← (r.setKind t k).toExcept
  (s.setKind t r.kind).toExcept

theorem Settled.exists_roundTrip (ht : t.Sound) (hr : r.Settled t) (hk : t.Supports k)
    (hown : t.Supports r.kind) :
    ∃ u, r.roundTrip t k = .ok u ∧ u.Settled t ∧ u.kind = r.kind ∧ u.label = r.label ∧
      u.extent = t.derive r.kind (t.derive k r.extent) := by
  obtain ⟨s, hs, -, hes⟩ := exists_setKind ht hr hk
  obtain ⟨hsettled, -⟩ := settled_setKind hr.kind (fun _ => hr) hs
  obtain ⟨u, hu, hku, heu⟩ := exists_setKind ht hsettled hown
  refine ⟨u, ?_, (settled_setKind hsettled.kind (fun _ => hsettled) hu).1, hku, ?_, ?_⟩
  · show (r.setKind t k).toExcept >>= _ = _
    rw [Change.toExcept_eq_ok_iff.2 hs]
    exact Change.toExcept_eq_ok_iff.2 hu
  · rw [label_setKind hu, label_setKind hs]
  · rw [heu, hes]

/-- A conversion there and back begins with the completion. -/
theorem roundTrip_of_ensureComplete (h : r.ensureComplete t = .ok s) (hs : s.isComplete = true)
    (hkind : s.kind = r.kind) (hk : t.Supports k) : r.roundTrip t k = s.roundTrip t k := by
  unfold roundTrip
  rw [setKind_of_ensureComplete h hs hk, hkind]

section RoundTrip

variable (ht : t.Sound) (hr : r.Settled t) (hv : k ≠ .vertex) (hk : t.Supports k)
include ht hr hv hk

theorem Settled.exists_roundTrip_vertex (hkind : r.kind = .vertex) :
    ∃ u, r.roundTrip t k = .ok u ∧ u.Settled t ∧ u.kind = .vertex ∧ u.label = r.label ∧
      u.vertices = t.incidentVertices k (t.spanned k r.vertices) := by
  have hown : t.Supports r.kind := by
    rw [hkind]
    exact Topology.supports_vertex
  obtain ⟨u, hu, hsu, hku, hlu, heu⟩ := hr.exists_roundTrip ht hk hown
  refine ⟨u, hu, hsu, hku.trans hkind, hlu, ?_⟩
  rw [vertices, heu, hkind, ← hr.entities_eq hkind hv]
  exact Topology.vertices_derive hv

theorem Settled.exists_roundTrip_entities (hkind : r.kind = k) :
    ∃ u, r.roundTrip t .vertex = .ok u ∧ u.Settled t ∧ u.kind = k ∧ u.label = r.label ∧
      u.entities k = t.spanned k (t.incidentVertices k (r.entities k)) := by
  obtain ⟨u, hu, hsu, hku, hlu, heu⟩ := hr.exists_roundTrip ht Topology.supports_vertex (hkind ▸ hk)
  refine ⟨u, hu, hsu, hku.trans hkind, hlu, ?_⟩
  rw [entities, heu, hkind, Topology.entities_derive_self, if_neg hv,
    Topology.entities_derive_vertex hv, ← hr.vertices_eq hkind hv]
  rfl

end RoundTrip

/-! ## The adjunction -/

/-- Sets of vertices and sets of entities of kind `k` are adjoint on a mesh. -/
structure Adjoint (m : Mesh) (k : Kind) : Prop where
  galois : ∀ (name name' : String) (vertices : IdSet) (s : EntitySet),
    (∀ v ∈ vertices, v < m.vertexCount) → (∀ e ∈ s, ∃ vs, m.vertices? k e = some vs) →
      ∃ a b, (ofVertices name vertices).complete (.ofMesh m) = .ok a ∧
        (ofEntities name' k s).complete (.ofMesh m) = .ok b ∧
        ((∀ v ∈ b.vertices, v ∈ vertices) ↔ ∀ e ∈ s, e ∈ a.entities k)
  /-- There and back again no vertex is gained. -/
  shrinks : ∀ r : Region, r.Tidy (.ofMesh m) → m.Holds r.source r.extent → r.kind = .vertex →
    ∃ u, r.roundTrip (.ofMesh m) k = .ok u ∧ (∀ v ∈ u.vertices, v ∈ r.vertices) ∧
      u.roundTrip (.ofMesh m) k = .ok u
  /-- There and back again no entity is lost. -/
  grows : ∀ r : Region, r.Tidy (.ofMesh m) → m.Holds r.source r.extent → r.kind = k →
    ∃ u, r.roundTrip (.ofMesh m) .vertex = .ok u ∧ (∀ e ∈ r.entities k, e ∈ u.entities k) ∧
      u.roundTrip (.ofMesh m) .vertex = .ok u

theorem galois_of_completed (hv : k ≠ .vertex) {name name' : String} {vertices : IdSet}
    {s : EntitySet} (hvertices : ∀ v ∈ vertices, v < m.vertexCount)
    (hs : ∀ e ∈ s, ∃ vs, m.vertices? k e = some vs) :
    ∃ a b, (ofVertices name vertices).complete (.ofMesh m) = .ok a ∧
      (ofEntities name' k s).complete (.ofMesh m) = .ok b ∧
      ((∀ v ∈ b.vertices, v ∈ vertices) ↔ ∀ e ∈ s, e ∈ a.entities k) := by
  have hvalid : (Topology.ofMesh m).error? k (.only k s) = none := by
    rw [Topology.error?_ofMesh_eq_none_iff, Mesh.holds_iff hv, Extent.entities_only hv]
    exact hs
  obtain ⟨a, ha, -, haextent⟩ :=
    exists_complete (r := ofVertices name vertices) (Topology.error?_ofMesh_eq_none_iff.2 hvertices)
  obtain ⟨b, hb, -, hbextent⟩ := exists_complete (r := ofEntities name' k s) hvalid
  refine ⟨a, b, ha, hb, ?_⟩
  have hspanned : a.entities k = (Topology.ofMesh m).spanned k vertices := by
    rw [Region.entities, haextent]
    exact Topology.entities_derive_vertex hv
  have hincident : b.vertices = (Topology.ofMesh m).incidentVertices k s := by
    rw [Region.vertices, hbextent]
    refine (Topology.vertices_derive hv).trans ?_
    rw [show (ofEntities name' k s).extent = .only k s from rfl, Extent.entities_only hv]
  rw [hspanned, hincident]
  exact Topology.incidentVertices_subset_iff hs

section Mesh

variable (ht : (Topology.ofMesh m).Sound) (hv : k ≠ .vertex) (hk : (Topology.ofMesh m).Supports k)
  (hr : r.Tidy (.ofMesh m)) (hx : m.Holds r.source r.extent)
include ht hv hk hr hx

theorem roundTrip_shrinks (hkind : r.kind = .vertex) :
    ∃ u, r.roundTrip (.ofMesh m) k = .ok u ∧ (∀ v ∈ u.vertices, v ∈ r.vertices) ∧
      u.roundTrip (.ofMesh m) k = .ok u := by
  obtain ⟨s, hs, hset, hks, -, hpart⟩ :=
    hr.exists_ensureComplete (Topology.error?_ofMesh_eq_none_iff.2 hx)
  have hsame : s.vertices = r.vertices := by
    rw [hkind] at hpart
    have hvertices := congrArg Extent.vertices hpart
    exact hvertices
  obtain ⟨u, hu, hsu, hku, -, hvu⟩ :=
    hset.exists_roundTrip_vertex ht hv hk (hks.trans hkind)
  obtain ⟨w, hw, hsw, hkw, hlw, hvw⟩ := hsu.exists_roundTrip_vertex ht hv hk hku
  -- the vertices that are left are those of the entities that they span
  have hstays : w.vertices = u.vertices := by
    rw [hvw, hvu]
    exact Topology.incidentVertices_spanned_incidentVertices Topology.exists_vertices?_of_spanned
  have hagain : w = u := by
    refine hsw.eq hsu hlw (hkw.trans hku.symm) ?_
    rw [hkw]
    exact congrArg (fun vertices => ({ vertices } : Extent)) hstays
  refine ⟨u, ?_, fun v hvertex => ?_, hagain ▸ hw⟩
  · rw [roundTrip_of_ensureComplete hs hset.isComplete hks hk, hu]
  · rw [hvu] at hvertex
    exact hsame ▸ Topology.mem_of_mem_incidentVertices_spanned hvertex

theorem roundTrip_grows (hkind : r.kind = k) :
    ∃ u, r.roundTrip (.ofMesh m) .vertex = .ok u ∧ (∀ e ∈ r.entities k, e ∈ u.entities k) ∧
      u.roundTrip (.ofMesh m) .vertex = .ok u := by
  obtain ⟨s, hs, hset, hks, -, hpart⟩ :=
    hr.exists_ensureComplete (Topology.error?_ofMesh_eq_none_iff.2 hx)
  have hsame : s.entities k = r.entities k := by
    rw [hkind] at hpart
    rw [entities, entities, ← Extent.entities_part hv, hpart, Extent.entities_part hv]
  obtain ⟨u, hu, hsu, hku, -, heu⟩ :=
    hset.exists_roundTrip_entities ht hv hk (hks.trans hkind)
  obtain ⟨w, hw, hsw, hkw, hlw, hew⟩ := hsu.exists_roundTrip_entities ht hv hk hku
  have hstays : w.entities k = u.entities k := by
    rw [hew, heu]
    exact Topology.spanned_incidentVertices_spanned
  have hagain : w = u := by
    refine hsw.eq hsu hlw (hkw.trans hku.symm) ?_
    rw [hkw]
    exact Extent.part_congr hv hstays
  have hvalid : ∀ e ∈ r.entities k, ∃ vs, m.vertices? k e = some vs := by
    rw [← hr.kind, hkind] at hx
    exact (Mesh.holds_iff hv).1 hx
  refine ⟨u, ?_, fun e he => ?_, hagain ▸ hw⟩
  · rw [roundTrip_of_ensureComplete hs hset.isComplete hks Topology.supports_vertex, hu]
  · rw [heu, hsame]
    exact Topology.mem_spanned_incidentVertices hvalid he

end Mesh

/-- On the topology of a mesh that was built the two ways to convert, from vertices to a kind of
entities that the domain has and back, are adjoint: completion makes the one containment the other,
round trips lose vertices or gain entities only, and the second changes nothing. -/
theorem vertices_adjoint (hm : m.Built) (hv : k ≠ .vertex) (hk : (Topology.ofMesh m).Supports k) :
    Adjoint m k where
  galois _ _ _ _ hvertices hs := galois_of_completed hv hvertices hs
  shrinks _ hr hx hkind := roundTrip_shrinks (Topology.sound_ofMesh hm.valid) hv hk hr hx hkind
  grows _ hr hx hkind := roundTrip_grows (Topology.sound_ofMesh hm.valid) hv hk hr hx hkind

/-- The bottom of the cube with a vertex above it, as a region of faces and back. -/
theorem vertices_adjoint_cube :
    let t := Topology.ofMesh (.unitCube 1)
    let r := ofVertices "bottom" (.ofList [0, 1, 2, 3, 4])
    t.hasFaces = true ∧ ∃ u, r.roundTrip t .face = .ok u ∧ u.vertices.toList = [0, 1, 2, 3] ∧
      u.roundTrip t .face = .ok u := by
  intro t r
  have hfaces : t.hasFaces = true := by decide +kernel
  have hr : r.Tidy t := tidy_setVertices
  have hx : t.error? r.source r.extent = none := Option.isNone_iff_eq_none.1 (by decide +kernel)
  obtain ⟨u, hu, -, hagain⟩ :=
    (vertices_adjoint (Mesh.built_unitCube 1) (k := .face) (by decide) fun _ => hfaces).shrinks r hr
      (Topology.error?_ofMesh_eq_none_iff.1 hx) rfl
  have hvertices : (r.roundTrip t .face).toOption.map (·.vertices.toList) = some [0, 1, 2, 3] := by
    decide +kernel
  rw [hu] at hvertices
  exact ⟨hfaces, u, hu, Option.some.inj hvertices, hagain⟩

end Region

end Subdomain

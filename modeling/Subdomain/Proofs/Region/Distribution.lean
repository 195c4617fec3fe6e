import Subdomain.Proofs.Region.RoundTrip

/-!
# Distribution

The vertices of entities distribute over unions, and the entities that vertices span over
intersections. For the other operation just a containment is left: entities that share a
vertex may have no entity in common, and an entity may lie across two sets of vertices that
span nothing. So it is for the regions that are combined, with the sets that follow from
their own (`distributes`).
-/

namespace Subdomain

namespace Topology

variable {t : Topology} {m : Mesh} {k : Kind} {s u : EntitySet} {a b : IdSet}

/-! ## Sets -/

theorem incidentVertices_union :
    t.incidentVertices k (s ∪ u) = t.incidentVertices k s ∪ t.incidentVertices k u := by
  ext v
  simp only [mem_incidentVertices, SortedSet.mem_union, or_and_right, exists_or]

theorem incidentVertices_mono (h : s ⊆ u) : t.incidentVertices k s ⊆ t.incidentVertices k u := by
  intro v hv
  obtain ⟨e, he, hve⟩ := mem_incidentVertices.1 hv
  exact mem_incidentVertices.2 ⟨e, h e he, hve⟩

theorem spanned_inter :
    (ofMesh m).spanned k (a ∩ b) = (ofMesh m).spanned k a ∩ (ofMesh m).spanned k b := by
  ext e
  simp only [SortedSet.mem_inter, mem_spanned_ofMesh]
  constructor
  · rintro ⟨vs, hvs, hin⟩
    have hboth : ∀ v ∈ vs, v ∈ a ∧ v ∈ b := fun v hv => SortedSet.mem_inter.1 (hin v hv)
    exact ⟨⟨vs, hvs, fun v hv => (hboth v hv).1⟩, ⟨vs, hvs, fun v hv => (hboth v hv).2⟩⟩
  · rintro ⟨⟨vs, hvs, ha⟩, ws, hws, hb⟩
    cases hvs.symm.trans hws
    exact ⟨vs, hvs, fun v hv => SortedSet.mem_inter.2 ⟨ha v hv, hb v hv⟩⟩

theorem spanned_mono (h : a ⊆ b) : t.spanned k a ⊆ t.spanned k b := by
  intro e he
  obtain ⟨g, hg, hig, vs, hvs, hin⟩ := mem_spanned.1 he
  exact mem_spanned.2 ⟨g, hg, hig, vs, hvs, fun v hv => h v (hin v hv)⟩

end Topology

namespace Region

variable {t : Topology} {m : Mesh} {k : Kind} {a b : Region}

/-! ## Combinations by their operands -/

section

variable (op : SetOp) (ht : t.Sound) (ha : a.Settled t) (hb : b.Settled t) (hv : k ≠ .vertex)
include ht ha hb hv

/-- The vertices of a combination of entities are those of the entities that are left. -/
theorem exists_combine_entities (hk : t.Supports k) : ∃ r, combine t ⟨op, k⟩ a b = .ok r ∧
    r.vertices = t.incidentVertices k (op.apply (a.entities k) (b.entities k)) := by
  obtain ⟨r, hr, -, -, hextent⟩ := exists_combine ht ha hb (o := ⟨op, k⟩) hk
  refine ⟨r, hr, ?_⟩
  rw [vertices, hextent, Topology.vertices_derive hv]
  exact congrArg _ (Extent.entities_merge (o := ⟨op, k⟩) hv)

/-- The entities of a combination of vertices are those that the vertices that are left span. -/
theorem exists_combine_vertices : ∃ r, combine t ⟨op, .vertex⟩ a b = .ok r ∧
    r.entities k = t.spanned k (op.apply a.vertices b.vertices) := by
  obtain ⟨r, hr, -, -, hextent⟩ :=
    exists_combine ht ha hb (o := ⟨op, .vertex⟩) Topology.supports_vertex
  refine ⟨r, hr, ?_⟩
  rw [entities, hextent]
  exact Topology.entities_derive_vertex hv

end

/-! ## The laws -/

/-- How the vertices of entities of kind `k`, and the entities of that kind that vertices span,
come out of unions and intersections of complete regions. -/
structure Distributes (m : Mesh) (k : Kind) : Prop where
  vertices_add : ∀ a b : Region, a.Settled (.ofMesh m) → b.Settled (.ofMesh m) →
    a.kind = k → b.kind = k → ∃ r, combine (.ofMesh m) ⟨.add, k⟩ a b = .ok r ∧
      r.vertices = a.vertices ∪ b.vertices
  vertices_intersect : ∀ a b : Region, a.Settled (.ofMesh m) → b.Settled (.ofMesh m) →
    a.kind = k → b.kind = k → ∃ r, combine (.ofMesh m) ⟨.intersect, k⟩ a b = .ok r ∧
      r.vertices ⊆ a.vertices ∩ b.vertices
  entities_intersect : ∀ a b : Region, a.Settled (.ofMesh m) → b.Settled (.ofMesh m) →
    a.kind = .vertex → b.kind = .vertex → ∃ r, combine (.ofMesh m) ⟨.intersect, .vertex⟩ a b = .ok r ∧
      r.entities k = a.entities k ∩ b.entities k
  entities_add : ∀ a b : Region, a.Settled (.ofMesh m) → b.Settled (.ofMesh m) →
    a.kind = .vertex → b.kind = .vertex → ∃ r, combine (.ofMesh m) ⟨.add, .vertex⟩ a b = .ok r ∧
      a.entities k ∪ b.entities k ⊆ r.entities k

/-- On the topology of a mesh that was built, and for every kind of entities that the domain has,
the vertices of a union are the union of the vertices, and those of an intersection lie in both. The
entities of an intersection of vertex regions are the intersection of theirs, and those of a union
contain both. -/
theorem distributes (hm : m.Built) (hv : k ≠ .vertex) (hk : (Topology.ofMesh m).Supports k) :
    Distributes m k where
  vertices_add a b ha hb hka hkb := by
    obtain ⟨r, hr, hvertices⟩ :=
      exists_combine_entities .add (Topology.sound_ofMesh hm.valid) ha hb hv hk
    refine ⟨r, hr, hvertices.trans ?_⟩
    rw [ha.vertices_eq hka hv, hb.vertices_eq hkb hv]
    exact Topology.incidentVertices_union
  vertices_intersect a b ha hb hka hkb := by
    obtain ⟨r, hr, hvertices⟩ :=
      exists_combine_entities .intersect (Topology.sound_ofMesh hm.valid) ha hb hv hk
    refine ⟨r, hr, fun v hmem => ?_⟩
    rw [hvertices] at hmem
    rw [ha.vertices_eq hka hv, hb.vertices_eq hkb hv, SortedSet.mem_inter]
    exact ⟨Topology.incidentVertices_mono (fun e he => (SortedSet.mem_inter.1 he).1) v hmem,
      Topology.incidentVertices_mono (fun e he => (SortedSet.mem_inter.1 he).2) v hmem⟩
  entities_intersect a b ha hb hka hkb := by
    obtain ⟨r, hr, hentities⟩ :=
      exists_combine_vertices .intersect (Topology.sound_ofMesh hm.valid) ha hb hv
    refine ⟨r, hr, hentities.trans ?_⟩
    rw [ha.entities_eq hka hv, hb.entities_eq hkb hv]
    exact Topology.spanned_inter
  entities_add a b ha hb hka hkb := by
    obtain ⟨r, hr, hentities⟩ :=
      exists_combine_vertices .add (Topology.sound_ofMesh hm.valid) ha hb hv
    refine ⟨r, hr, fun e he => ?_⟩
    rw [ha.entities_eq hka hv, hb.entities_eq hkb hv, SortedSet.mem_union] at he
    rw [hentities]
    rcases he with he | he
    · exact Topology.spanned_mono (fun v hv => SortedSet.mem_union.2 (.inl hv)) e he
    · exact Topology.spanned_mono (fun v hv => SortedSet.mem_union.2 (.inr hv)) e he

/-- Two sides of the cube, the bottom and the front, as regions of faces. -/
theorem distributes_cube :
    let t := Topology.ofMesh (.unitCube 1)
    let bottom := ((ofEntities "bottom" .face (.ofList [⟨0, 0⟩])).completed t).region
    let front := ((ofEntities "front" .face (.ofList [⟨0, 2⟩])).completed t).region
    t.hasFaces = true ∧ bottom.vertices.toList = [0, 1, 2, 3] ∧
      front.vertices.toList = [0, 1, 4, 5] ∧
      ∃ r, combine t ⟨.add, .face⟩ bottom front = .ok r ∧
        r.vertices = bottom.vertices ∪ front.vertices := by
  intro t bottom front
  have hfaces : t.hasFaces = true := by decide +kernel
  have hbottom : (ofEntities "bottom" .face (.ofList [⟨0, 0⟩])).complete t = .ok bottom :=
    completed_eq_ok_iff.1 (congrArg (Change.mk _) (Option.isNone_iff_eq_none.1 (by decide +kernel)))
  have hfront : (ofEntities "front" .face (.ofList [⟨0, 2⟩])).complete t = .ok front :=
    completed_eq_ok_iff.1 (congrArg (Change.mk _) (Option.isNone_iff_eq_none.1 (by decide +kernel)))
  have hkind : bottom.kind = .face ∧ front.kind = .face := by decide +kernel
  refine ⟨hfaces, by decide +kernel, by decide +kernel, ?_⟩
  exact (distributes (Mesh.built_unitCube 1) (by decide) fun _ => hfaces).vertices_add _ _
    (settled_of_complete rfl hbottom) (settled_of_complete rfl hfront) hkind.1 hkind.2

/-- The containments are strict: cells side by side share vertices and no cell, and two edges of a
square have no cell and together all of it. -/
example :
    let t := Topology.ofMesh (.unitSquare 2 1)
    let made := fun r : Region => (r.completed t).region
    let left := made (ofEntities "left" .cell (.ofList [⟨0, 0⟩]))
    let right := made (ofEntities "right" .cell (.ofList [⟨0, 1⟩]))
    let low := made (ofVertices "low" (.ofList [0, 1]))
    let high := made (ofVertices "high" (.ofList [3, 4]))
    let vertices := fun r => (Except.toOption r).map fun r : Region => r.vertices.toList
    let cells := fun r => (Except.toOption r).map fun r : Region => r.cells.toList
    vertices (combine t ⟨.intersect, .cell⟩ left right) = some [] ∧
      (left.vertices ∩ right.vertices).toList = [1, 4] ∧
      cells (combine t ⟨.add, .vertex⟩ low high) = some [⟨0, 0⟩] ∧
      (low.cells ∪ high.cells).toList = [] := by
  decide +kernel

end Region

end Subdomain

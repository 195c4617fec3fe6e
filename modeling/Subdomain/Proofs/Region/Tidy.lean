import Subdomain.Proofs.Region.Derivation

/-!
# Tidy regions

A region is tidy if it has no set but its authoritative one as long as it is incomplete,
and is settled once it is complete. Setting, completing, converting and combining keep
regions tidy, also where they fail. A settled region has the groups that use one of its
vertices, and all its entities are in these (`Settled.group_mem_groups`).
-/

namespace Subdomain

namespace Region

variable {t : Topology} {r s : Region} {m : Mesh}

/-- The region has no set but its authoritative one. -/
structure Reduced (r : Region) : Prop where
  sets : ∀ k ≠ r.source, r.extent.part k = {}
  groups : r.groups = ∅
  shape : r.shape = {}

structure Tidy (t : Topology) (r : Region) : Prop where
  kind : r.kind = r.source
  reduced : r.isComplete = false → r.Reduced
  settled : r.isComplete = true → r.Settled t

theorem Settled.tidy (h : r.Settled t) : r.Tidy t where
  kind := h.kind
  reduced hr := by
    rw [h.isComplete] at hr
    cases hr
  settled _ := h

theorem Tidy.relabel (h : r.Tidy t) (name definition : String) (parent : Option String) :
    ({ r with name, definition, parent } : Region).Tidy t where
  kind := h.kind
  reduced hr := ⟨(h.reduced hr).sets, (h.reduced hr).groups, (h.reduced hr).shape⟩
  settled hr := (h.settled hr).relabel name definition parent

theorem part_only {k k' : Kind} (h : k' ≠ k) (s : EntitySet) : (Extent.only k s).part k' = {} := by
  cases k <;> cases k' <;> first | contradiction | rfl

theorem part_part {k k' : Kind} (h : k' ≠ k) (x : Extent) : (x.part k).part k' = {} := by
  cases k with
  | vertex => cases k' <;> first | contradiction | rfl
  | edge | face | facet | cell => exact part_only h _

theorem tidy_reset {k : Kind} {x : Extent} (hx : ∀ k' ≠ k, x.part k' = {}) :
    (r.reset k x).Tidy t where
  kind := rfl
  reduced _ := ⟨hx, rfl, rfl⟩
  settled hr := by cases hr

theorem tidy_setVertices {vertices : IdSet} : (r.setVertices vertices).Tidy t := by
  refine tidy_reset fun k hk => ?_
  cases k <;> first | contradiction | rfl

theorem tidy_setEntities {k : Kind} {s : EntitySet} : (r.setEntities k s).Tidy t :=
  tidy_reset fun _ hk => part_only hk s

theorem tidy_completed (hr : r.Tidy t) : (r.completed t).region.Tidy t := by
  unfold completed
  split
  · rename_i s hs
    exact (settled_of_complete hr.kind hs).tidy
  · exact hr

theorem tidy_setKind (hr : r.Tidy t) {k : Kind} : (r.setKind t k).region.Tidy t := by
  unfold setKind
  split
  · exact hr
  · split
    · exact hr
    · rename_i u hu
      have hset := settled_of_ensureComplete hr.kind hr.settled hu
      split
      · rename_i hk
        obtain rfl : k = u.kind := hk.trans hset.kind.symm
        exact hset.tidy
      · -- the last completion may fail and leave just the promoted set
        exact tidy_completed (tidy_reset fun k' hk' => part_part hk' _)

theorem settled_empty (name : String) : (empty name).Settled (.ofMesh m) := by
  refine ⟨rfl, rfl, rfl, Topology.derive_empty .vertex, ?_, rfl⟩
  ext ig
  refine iff_of_false (fun hig => ?_) (SortedSet.not_mem_empty ig)
  obtain ⟨-, -, -, v, hv, -⟩ := Topology.mem_groupsUsing.1 hig
  exact SortedSet.not_mem_empty v hv

/-! ## Groups -/

/-- The groups of a settled region are those of the mesh that use one of its vertices. -/
theorem Settled.mem_groups_iff (h : r.Settled (.ofMesh m)) {ig : Nat} :
    ig ∈ r.groups ↔ ∃ g, m.groups[ig]? = some g ∧ ∃ v ∈ r.vertices, v ∈ g.conn := by
  have hconn {e : ElementGroup} {offset v : Nat} :
      v ∈ (GroupTopology.ofGroup ig e offset).vertices ↔ v ∈ e.conn := SortedSet.mem_ofList
  rw [← h.groups, Topology.mem_groupsUsing]
  constructor
  · rintro ⟨g, hg, hig, v, hv, hmem⟩
    obtain ⟨e, offset, he, rfl⟩ :=
      Topology.exists_group_of_group? (Topology.mem_groups_ofMesh_iff.1 ⟨hg, hig⟩)
    exact ⟨e, he, v, hv, hconn.1 hmem⟩
  · rintro ⟨e, he, v, hv, hmem⟩
    obtain ⟨offset, hgroup⟩ := Topology.exists_group?_of_group he
    obtain ⟨hg, hig⟩ := Topology.mem_groups_ofMesh_iff.2 hgroup
    exact ⟨_, hg, hig, v, hv, hconn.2 hmem⟩

theorem Settled.derives (h : r.Settled (.ofMesh m)) : m.Derives r.source r.extent r.extent := by
  have hd := Topology.derives_derive (m := m) (k := r.source) (x := r.extent)
  rwa [h.derived] at hd

theorem Settled.holds (h : r.Settled (.ofMesh m)) : m.Holds r.source r.extent :=
  Topology.error?_ofMesh_eq_none_iff.1 h.valid

theorem Settled.group_mem_groups (h : r.Settled (.ofMesh m)) {k : Kind} (hk : k ≠ .vertex)
    {e : Entity} (he : e ∈ r.entities k) : e.group ∈ r.groups := by
  obtain ⟨k₁, e₁, hgroup, hspanned⟩ := h.derives.exists_spanned h.holds hk he
  rw [h.mem_groups_iff, ← hgroup]
  exact hspanned.exists_mem_conn

end Region

end Subdomain

import Subdomain.Proofs.Region.Grouping
import Subdomain.Proofs.Region.Tidy

/-!
# Edits

A region is made, changed, completed, converted and combined by edits, of which
any may fail. All edits leave it pruned and tidy (`tidy_next`, `tidy_after`). So on the
topology of any mesh, valid or not, every region that edits lead to is consistent
(`consistent_after`), and its entities tell it (`grouped_flat_after`).
-/

namespace Subdomain

namespace GroupedRegion

/-- Sets of entities are given by group, and a set that is given may be empty. -/
inductive Edit where
  | new (name : String)
  | ofVertices (name : String) (vertices : List Nat)
  | ofEntities (name : String) (kind : Kind) (sets : GroupSets)
  | setVertices (vertices : List Nat)
  | setCells (sets : GroupSets)
  | setEntities (kind : Kind) (sets : GroupSets)
  | complete
  | setKind (kind : Kind)
  | combine (o : SetOperator) (other : GroupedRegion)
  | setName (name : String)
  | setDefinition (definition : String)
  | setParent (parent : Option String)

/-- The region that an edit leaves behind, also if it fails. -/
def Edit.next (t : Topology) (r : GroupedRegion) : Edit → GroupedRegion
  | new name => .empty name
  | ofVertices name vertices => .ofVertices name (.ofList vertices)
  | ofEntities name kind sets => .ofEntities name kind sets
  | setVertices vertices => r.setVertices (.ofList vertices)
  | setCells sets => r.setCells sets
  | setEntities kind sets => r.setEntities kind sets
  | complete => (r.complete t).region
  | setKind kind => (r.setKind t kind).region
  | combine o other => (GroupedRegion.combine t o r other).toOption.getD r
  | setName name => r.setName name
  | setDefinition definition => r.setDefinition definition
  | setParent parent => r.setParent parent

/-- The region after edits in turn. -/
def after (t : Topology) (r : GroupedRegion) (edits : List Edit) : GroupedRegion :=
  edits.foldl (fun r edit => edit.next t r) r

variable {t : Topology} {m : Mesh} {r : GroupedRegion}

/-- The region has no empty sets, and its entities are those of a tidy region. -/
structure Tidy (t : Topology) (r : GroupedRegion) : Prop where
  pruned : r.Pruned
  flat : r.flat.Tidy t

theorem tidy_empty (name : String) : (empty name).Tidy (.ofMesh m) where
  pruned := ⟨GroupSets.pruned_empty, GroupSets.pruned_empty, GroupSets.pruned_empty,
    GroupSets.pruned_empty⟩
  flat := (Region.settled_empty name).tidy

theorem tidy_setVertices {vertices : IdSet} : (r.setVertices vertices).Tidy t :=
  ⟨pruned_setVertices, Region.tidy_setVertices (r := r.flat)⟩

theorem tidy_setEntities {k : Kind} {s : GroupSets} : (r.setEntities k s).Tidy t where
  pruned := pruned_setEntities
  flat := by
    rw [flat_setEntities]
    exact Region.tidy_setEntities

theorem Tidy.relabel (h : r.Tidy t) (name definition : String) (parent : Option String) :
    ({ r with name, definition, parent } : GroupedRegion).Tidy t where
  pruned := ⟨h.pruned.edges, h.pruned.faces, h.pruned.facets, h.pruned.cells⟩
  flat := h.flat.relabel name definition parent

theorem Tidy.complete (h : r.Tidy (.ofMesh m)) :
    (r.complete (.ofMesh m)).region.Tidy (.ofMesh m) where
  pruned := h.pruned.complete
  flat := by
    have hflat : (r.complete (.ofMesh m)).region.flat = (r.flat.completed (.ofMesh m)).region :=
      congrArg Change.region (flat_complete h.pruned)
    rw [hflat]
    exact Region.tidy_completed h.flat

theorem Tidy.setKind (h : r.Tidy (.ofMesh m)) {k : Kind} :
    (r.setKind (.ofMesh m) k).region.Tidy (.ofMesh m) where
  pruned := h.pruned.setKind
  flat := by
    have hflat : (r.setKind (.ofMesh m) k).region.flat = (r.flat.setKind (.ofMesh m) k).region :=
      congrArg Change.region (flat_setKind h.pruned)
    rw [hflat]
    exact Region.tidy_setKind h.flat

theorem tidy_of_combine {o : SetOperator} {a b : GroupedRegion}
    (h : combine (.ofMesh m) o a b = .ok r) : r.Tidy (.ofMesh m) where
  pruned := pruned_of_combine h
  flat := by
    have hflat := flat_combine (m := m) (a := a) (b := b) o
    rw [h] at hflat
    exact (Region.settled_of_combine hflat.symm).tidy

/-! ## Runs of edits -/

theorem tidy_next (h : r.Tidy (.ofMesh m)) (edit : Edit) :
    (edit.next (.ofMesh m) r).Tidy (.ofMesh m) := by
  cases edit with
  | new name => exact tidy_empty name
  | ofVertices name vertices => exact tidy_setVertices
  | ofEntities name kind sets => exact tidy_setEntities
  | setVertices vertices => exact tidy_setVertices
  | setCells sets => exact tidy_setEntities (k := .cell)
  | setEntities kind sets => exact tidy_setEntities
  | complete => exact h.complete
  | setKind kind => exact h.setKind
  | combine o other =>
    rw [Edit.next]
    cases hcombine : GroupedRegion.combine (.ofMesh m) o r other with
    | error e => exact h
    | ok s => exact tidy_of_combine hcombine
  | setName name => exact h.relabel name r.definition r.parent
  | setDefinition definition => exact h.relabel r.name definition r.parent
  | setParent parent => exact h.relabel r.name r.definition parent

theorem tidy_after (h : r.Tidy (.ofMesh m)) (edits : List Edit) :
    (r.after (.ofMesh m) edits).Tidy (.ofMesh m) := by
  induction edits generalizing r with
  | nil => exact h
  | cons edit edits ih => exact ih (tidy_next h edit)

/-- Nothing of a region that edits lead to is lost where its entities are told one by one. -/
theorem grouped_flat_after (m : Mesh) (name : String) (edits : List Edit) :
    ((empty name).after (.ofMesh m) edits).flat.grouped = (empty name).after (.ofMesh m) edits :=
  (tidy_after (tidy_empty name) edits).pruned.grouped_flat

/-! ## Consistency -/

structure Consistent (m : Mesh) (r : GroupedRegion) : Prop where
  /-- The authoritative set is the one of the region's kind. -/
  kind : r.kind = r.source
  nonempty : ∀ k, ∀ e ∈ (r.sets k).entries, e.2 ≠ ∅
  reduced : r.isComplete = false →
    (r.source ≠ .vertex → r.vertices = ∅) ∧ (∀ k ≠ .vertex, k ≠ r.source → r.sets k = ∅) ∧
      r.groups = ∅ ∧ r.shape = {}
  /-- Completing a complete region again changes nothing. -/
  complete : r.isComplete = true → r.complete (.ofMesh m) = ⟨r, none⟩
  shape : r.isComplete = true → r.shape =
    { vertices := r.vertices.toList.length
      edges := total (r.edges.entries.map (·.2.toList.length))
      faces := total (r.faces.entries.map (·.2.toList.length))
      facets := total (r.facets.entries.map (·.2.toList.length))
      cells := total (r.cells.entries.map (·.2.toList.length)) }
  hasCells : r.isComplete = true → (r.hasCells = true ↔ 0 < r.shape.cells)
  groups : r.isComplete = true →
    ∀ ig, ig ∈ r.groups ↔ ∃ g, m.groups[ig]? = some g ∧ ∃ v ∈ r.vertices, v ∈ g.conn
  grouped : r.isComplete = true → ∀ k ≠ .vertex, ∀ e ∈ (r.sets k).entries, e.1 ∈ r.groups

section Tidy

variable (h : r.Tidy (.ofMesh m))
include h

theorem Tidy.sets_eq_empty (hr : r.isComplete = false) {k : Kind} (hk : k ≠ .vertex)
    (hsource : k ≠ r.source) : r.sets k = ∅ := by
  have hpart := congrArg (Extent.entities · k) ((h.flat.reduced hr).sets k hsource)
  refine (h.pruned.sets k).flat_inj GroupSets.pruned_empty ?_
  rw [← entities_flat]
  cases k with
  | vertex => exact absurd rfl hk
  | edge | face | facet | cell => exact hpart

theorem Tidy.complete_eq (hr : r.isComplete = true) : r.complete (.ofMesh m) = ⟨r, none⟩ := by
  have hflat := (h.flat.settled hr).complete_eq
  obtain ⟨u, hu, hok⟩ | ⟨e, -, herror⟩ := flat_complete_cases (m := m) h.pruned
  · have hpruned := h.pruned.complete (t := .ofMesh m)
    rw [hu] at hpruned
    cases hpruned.flat_inj h.pruned (Except.ok.inj (hok.symm.trans hflat))
    exact hu
  · cases herror.symm.trans hflat

theorem Tidy.shape_eq (hr : r.isComplete = true) : r.shape = r.count :=
  (h.flat.settled hr).shape.symm.trans count_eq.symm

theorem Tidy.hasCells_iff (hr : r.isComplete = true) : r.hasCells = true ↔ 0 < r.shape.cells := by
  rw [h.shape_eq hr, count_eq, hasCells, ← h.pruned.cells.isEmpty_flat]
  show (!r.cells.flat.toList.isEmpty) = true ↔ 0 < r.cells.flat.toList.length
  rw [List.length_pos_iff, Bool.not_eq_true', List.isEmpty_eq_false_iff]

theorem Tidy.mem_groups (hr : r.isComplete = true) {k : Kind} (hk : k ≠ .vertex)
    {e : Nat × IdSet} (he : e ∈ (r.sets k).entries) : e.1 ∈ r.groups := by
  obtain ⟨i, hi⟩ := SortedSet.exists_mem_of_ne_empty (h.pruned.sets k e he)
  have hmem : (⟨e.1, i⟩ : Entity) ∈ r.flat.entities k := by
    rw [entities_flat, GroupSets.mem_flat, GroupSets.idsOf_of_mem he]
    exact hi
  exact (h.flat.settled hr).group_mem_groups hk hmem

theorem Tidy.consistent : r.Consistent m where
  kind := h.flat.kind
  nonempty k := h.pruned.sets k
  reduced hr := ⟨fun hk => congrArg Extent.vertices ((h.flat.reduced hr).sets .vertex hk.symm),
    fun _ hk hsource => h.sets_eq_empty hr hk hsource, (h.flat.reduced hr).groups,
    (h.flat.reduced hr).shape⟩
  complete hr := h.complete_eq hr
  shape hr := h.shape_eq hr
  hasCells hr := h.hasCells_iff hr
  groups hr _ := (h.flat.settled hr).mem_groups_iff
  grouped hr _ hk _ he := h.mem_groups hr hk he

end Tidy

/-- Whatever is done to a region on the topology of a mesh, and whatever fails, the region is
consistent. -/
theorem consistent_after (m : Mesh) (name : String) (edits : List Edit) :
    ((empty name).after (.ofMesh m) edits).Consistent m :=
  (tidy_after (tidy_empty name) edits).consistent

end GroupedRegion

end Subdomain

import Subdomain.Proofs.Region.Gathering

/-!
# Regions by group and their entities

On the topology of a mesh every operation on a region by group does to its entities what
the operation on regions does (`flat_setEntities`, `flat_complete`, `flat_setKind`,
`flat_combine`), if the region has no empty sets: an empty set in a group that the mesh
does not have would be refused for its group. No operation makes an empty set
(`pruned_setEntities`, `Pruned.complete`, `Pruned.setKind`, `pruned_of_combine`), and without
empty sets a region is told by its entities (`Pruned.grouped_flat`).
-/

namespace Subdomain

namespace GroupedRegion

variable {t : Topology} {m : Mesh} {k : Kind} {r a b : GroupedRegion} {s : GroupSets}

/-- No set is empty. -/
structure Pruned (r : GroupedRegion) : Prop where
  edges : r.edges.Pruned
  faces : r.faces.Pruned
  facets : r.facets.Pruned
  cells : r.cells.Pruned

theorem Pruned.sets (h : r.Pruned) (k : Kind) : (r.sets k).Pruned := by
  cases k with
  | edge => exact h.edges
  | face => exact h.faces
  | facet => exact h.facets
  | vertex | cell => exact h.cells

theorem Pruned.put (h : r.Pruned) (hs : s.Pruned) : (r.put k s).Pruned := by
  cases k with
  | edge => exact ⟨hs, h.faces, h.facets, h.cells⟩
  | face => exact ⟨h.edges, hs, h.facets, h.cells⟩
  | facet => exact ⟨h.edges, h.faces, hs, h.cells⟩
  | vertex | cell => exact ⟨h.edges, h.faces, h.facets, hs⟩

/-! ## Setting -/

theorem entities_flat (k : Kind) : r.flat.entities k = (r.sets k).flat := by
  cases k <;> rfl

theorem flat_setVertices (vertices : IdSet) :
    (r.setVertices vertices).flat = r.flat.setVertices vertices := rfl

theorem flat_setEntities (k : Kind) (s : GroupSets) :
    (r.setEntities k s).flat = r.flat.setEntities k s.flat := by
  cases k with
  | vertex =>
    have hvertices : (SortedSet.ofList (s.entries.flatMap (·.2.toList)) : IdSet) =
        .ofList (s.flat.toList.map (·.index)) := by
      ext v
      simp only [SortedSet.mem_ofList, List.mem_flatMap, List.mem_map, SortedSet.mem_toList,
        GroupSets.mem_flat, GroupSets.mem_idsOf]
      constructor
      · rintro ⟨e, he, hv⟩
        exact ⟨⟨e.1, v⟩, ⟨e.2, he, hv⟩, rfl⟩
      · rintro ⟨a, ⟨ids, he, hv⟩, rfl⟩
        exact ⟨_, he, hv⟩
    exact congrArg r.flat.setVertices hvertices
  | edge | face | facet | cell =>
    exact congrArg (r.flat.setEntities _) GroupSets.flat_prune

theorem pruned_invalidate : (r.invalidate k).Pruned :=
  ⟨GroupSets.pruned_empty, GroupSets.pruned_empty, GroupSets.pruned_empty, GroupSets.pruned_empty⟩

theorem pruned_setVertices {vertices : IdSet} : (r.setVertices vertices).Pruned :=
  ⟨GroupSets.pruned_empty, GroupSets.pruned_empty, GroupSets.pruned_empty, GroupSets.pruned_empty⟩

theorem pruned_setEntities : (r.setEntities k s).Pruned := by
  unfold setEntities
  split
  · exact pruned_setVertices
  · exact pruned_invalidate.put GroupSets.pruned_prune

/-! ## Completion -/

theorem error?_eq (hr : r.Pruned) : r.error? t = t.error? r.source r.flat.extent := by
  have herror := Topology.findSome?_setError? (t := t) (k := r.source) (hr.sets r.source)
  unfold error?
  split
  · rename_i hk
    rw [hk]
    rfl
  · rename_i hk
    rw [herror, ← entities_flat]
    unfold Topology.error? Region.entities
    cases hsource : r.source with
    | vertex => exact absurd hsource hk
    | edge | face | facet | cell => rfl

theorem flat_deriveEntities (hk : k ≠ .vertex) (hc : k ≠ .cell) :
    (r.deriveEntities (.ofMesh m) k).flat =
      if r.source = .cell then (Topology.ofMesh m).entitiesOfCells k r.cells.flat
      else (Topology.ofMesh m).spanned k r.vertices := by
  ext a
  unfold deriveEntities
  split
  · exact (Topology.mem_flat_gather_tables hk hc).trans Topology.mem_entitiesOfCells.symm
  · rw [Topology.mem_flat_gather, Topology.mem_spanned]
    simp only [← Topology.mem_groups_ofMesh_iff, and_assoc]
    refine exists_congr fun g => and_congr_right fun _ => and_congr_right fun _ => ?_
    obtain ⟨table, ht⟩ := g.exists_table? hk hc
    rw [GroupTopology.items, ht, Option.elim_some, Option.elim_some, Topology.mem_within]

theorem flat_deriveCells (hc : r.source ≠ .cell) :
    (r.deriveCells (.ofMesh m)).flat =
      if r.source = .vertex then (Topology.ofMesh m).spanned .cell r.vertices
      else (Topology.ofMesh m).ownersOf r.source (r.sets r.source).flat := by
  ext a
  unfold deriveCells
  split
  · rename_i hv
    rw [Topology.mem_flat_gather, Topology.mem_spanned]
    simp only [← Topology.mem_groups_ofMesh_iff, and_assoc, hv]
    refine exists_congr fun g => and_congr_right fun _ => and_congr_right fun _ => ?_
    exact Topology.mem_within
  · rename_i hv
    exact (Topology.mem_flat_gather_tables hv hc).trans Topology.mem_ownersOf.symm

theorem count_eq : r.count = r.flat.extent.shape := by
  simp only [count, Extent.shape, flat, GroupSets.size_flat]

theorem sets_deriveVertices : (r.deriveVertices t).sets k = r.sets k := by
  unfold deriveVertices
  split
  · rfl
  · cases k <;> rfl

theorem source_deriveVertices : (r.deriveVertices t).source = r.source := by
  unfold deriveVertices
  split <;> rfl

theorem vertices_deriveVertices :
    (r.deriveVertices t).vertices = (t.derive r.source r.flat.extent).vertices := by
  unfold deriveVertices
  split
  · rename_i hk
    rw [hk]
    rfl
  · rename_i hk
    rw [Topology.vertices_derive hk]
    exact Topology.verticesOf_eq.trans (congrArg _ (entities_flat _).symm)

/-- What a completion derives of the edges, the faces or the facets. -/
theorem sets_derive (hk : k ≠ .vertex) (hc : k ≠ .cell) :
    (r.derive t).sets k =
      if k = r.source then r.sets k else (r.deriveVertices t).deriveEntities t k := by
  obtain ⟨_, _, _, _, source, _⟩ := r
  cases k <;> cases source <;> first | contradiction | rfl

theorem cells_derive : (r.derive t).cells =
    if r.source = .cell then r.cells else (r.deriveVertices t).deriveCells t := by
  obtain ⟨_, _, _, _, source, _⟩ := r
  cases source <;> rfl

theorem pruned_derive (hr : r.Pruned) : (r.derive t).Pruned := by
  have hsets {k : Kind} (hk : k ≠ .vertex) (hc : k ≠ .cell) : ((r.derive t).sets k).Pruned := by
    rw [sets_derive hk hc]
    split
    · exact hr.sets k
    · exact Topology.pruned_gather
  refine ⟨hsets (k := .edge) (by decide) (by decide), hsets (k := .face) (by decide) (by decide),
    hsets (k := .facet) (by decide) (by decide), ?_⟩
  rw [cells_derive]
  split
  · exact hr.cells
  · exact Topology.pruned_gather

theorem entities_derive (hk : k ≠ .vertex) (hc : k ≠ .cell) :
    ((r.derive (.ofMesh m)).sets k).flat =
      ((Topology.ofMesh m).derive r.source r.flat.extent).entities k := by
  have hcells : (r.deriveVertices (.ofMesh m)).cells = r.cells := sets_deriveVertices (k := .cell)
  rw [sets_derive hk hc]
  split
  · rename_i hself
    rw [hself, Topology.entities_derive_self, if_neg (hself ▸ hk)]
    exact (entities_flat _).symm
  · rename_i hself
    rw [flat_deriveEntities hk hc, source_deriveVertices, hcells, vertices_deriveVertices]
    split
    · rename_i hsource
      rw [hsource, Topology.entities_derive_cell hk hc]
      rfl
    · rename_i hsource
      by_cases hv : r.source = .vertex
      · rw [hv, Topology.entities_derive_vertex hk]
        rfl
      · rw [Topology.entities_derive_table hv hsource hk hc hself, Topology.vertices_derive hv]

theorem flat_cells_derive :
    (r.derive (.ofMesh m)).cells.flat =
      ((Topology.ofMesh m).derive r.source r.flat.extent).cells := by
  rw [cells_derive]
  split
  · rename_i hsource
    rw [hsource]
    rfl
  · rename_i hsource
    have hderived : (r.deriveVertices (.ofMesh m)).source ≠ .cell := by
      rwa [source_deriveVertices]
    rw [flat_deriveCells hderived, source_deriveVertices, sets_deriveVertices,
      vertices_deriveVertices]
    split
    · rename_i hv
      rw [hv]
      rfl
    · rename_i hv
      rw [Topology.cells_derive_table hv hsource]
      exact congrArg _ (entities_flat _).symm

theorem extent_derive :
    (r.derive (.ofMesh m)).flat.extent = (Topology.ofMesh m).derive r.source r.flat.extent := by
  have hvertices : (r.derive (.ofMesh m)).vertices = (r.deriveVertices (.ofMesh m)).vertices := by
    obtain ⟨_, _, _, _, source, _⟩ := r
    cases source <;> rfl
  have hedges := entities_derive (m := m) (r := r) (k := .edge) (by decide) (by decide)
  have hfaces := entities_derive (m := m) (r := r) (k := .face) (by decide) (by decide)
  have hfacets := entities_derive (m := m) (r := r) (k := .facet) (by decide) (by decide)
  have hcells := flat_cells_derive (m := m) (r := r)
  rw [vertices_deriveVertices] at hvertices
  generalize r.derive (.ofMesh m) = derived at *
  exact Extent.ext_iff.2 ⟨hvertices, hedges, hfaces, hfacets, hcells⟩

theorem flat_derive :
    (r.derive (.ofMesh m)).flat =
      let extent := (Topology.ofMesh m).derive r.source r.flat.extent
      { r.flat with
        isComplete := true, extent, groups := (Topology.ofMesh m).groupsUsing extent.vertices
        shape := extent.shape } := by
  have hrest : (r.derive (.ofMesh m)).flat =
      let d := r.derive (.ofMesh m)
      { r.flat with
        isComplete := true, extent := d.flat.extent
        groups := (Topology.ofMesh m).groupsUsing d.flat.extent.vertices, shape := d.count } := by
    obtain ⟨_, _, _, _, source, _⟩ := r
    cases source <;> rfl
  rw [hrest]
  simp only [count_eq, extent_derive]

end GroupedRegion

/-- The region that a change leaves behind, with its entities told one by one. -/
def GroupedChange.flat (c : GroupedChange) : Change := ⟨c.region.flat, c.error?⟩

namespace GroupedRegion

variable {t : Topology} {m : Mesh} {k : Kind} {r a b : GroupedRegion} {s : GroupSets}

theorem flat_complete (hr : r.Pruned) :
    (r.complete (.ofMesh m)).flat = r.flat.completed (.ofMesh m) := by
  have herror := error?_eq (t := .ofMesh m) hr
  unfold complete Region.completed Region.complete
  change r.error? _ = Topology.error? _ r.flat.source _ at herror
  rw [herror]
  cases Topology.error? (.ofMesh m) r.flat.source r.flat.extent with
  | some e => rfl
  | none => exact congrArg (Change.mk · none) flat_derive

theorem Pruned.complete (hr : r.Pruned) : (r.complete t).region.Pruned := by
  unfold GroupedRegion.complete
  cases r.error? t with
  | some e => exact hr
  | none => exact pruned_derive hr

/-- A completion succeeds with both or fails with both. -/
theorem flat_complete_cases (hr : r.Pruned) :
    (∃ u, r.complete (.ofMesh m) = ⟨u, none⟩ ∧ r.flat.complete (.ofMesh m) = .ok u.flat) ∨
    ∃ e, (r.complete (.ofMesh m)).flat = ⟨r.flat, some e⟩ ∧
      r.flat.complete (.ofMesh m) = .error e := by
  have hflat := flat_complete (m := m) hr
  cases hcomplete : r.flat.complete (.ofMesh m) with
  | error e =>
    rw [Region.completed, hcomplete] at hflat
    exact .inr ⟨e, hflat, rfl⟩
  | ok v =>
    rw [Region.completed_eq_ok_iff.2 hcomplete] at hflat
    generalize r.complete (.ofMesh m) = c at hflat ⊢
    obtain ⟨u, error?⟩ := c
    cases hflat
    exact .inl ⟨u, rfl, rfl⟩

theorem flat_ensureComplete_cases (hr : r.Pruned) :
    (∃ u, r.ensureComplete (.ofMesh m) = ⟨u, none⟩ ∧
      r.flat.ensureComplete (.ofMesh m) = .ok u.flat) ∨
    ∃ e, (r.ensureComplete (.ofMesh m)).flat = ⟨r.flat, some e⟩ ∧
      r.flat.ensureComplete (.ofMesh m) = .error e := by
  unfold ensureComplete Region.ensureComplete
  by_cases hc : r.isComplete = true
  · exact .inl ⟨r, if_pos hc, if_pos hc⟩
  · have hc' : ¬ r.flat.isComplete = true := hc
    rw [if_neg hc, if_neg hc']
    exact flat_complete_cases hr

theorem Pruned.ensureComplete (hr : r.Pruned) : (r.ensureComplete t).region.Pruned := by
  unfold GroupedRegion.ensureComplete
  split
  · exact hr
  · exact hr.complete

/-! ## Conversion -/

theorem flat_promote : (r.promote k).flat = r.flat.promote k := by
  by_cases hk : k = .vertex
  · subst hk
    rfl
  · rw [promote, if_neg hk, flat_setEntities, ← entities_flat]
    cases k with
    | vertex => exact absurd rfl hk
    | edge | face | facet | cell => rfl

theorem pruned_promote : (r.promote k).Pruned := by
  unfold promote
  split
  · exact pruned_setVertices
  · exact pruned_setEntities

theorem flat_setKind (hr : r.Pruned) :
    (r.setKind (.ofMesh m) k).flat = r.flat.setKind (.ofMesh m) k := by
  have hpruned := hr.ensureComplete (t := .ofMesh m)
  unfold setKind Region.setKind
  by_cases hf : k = .face ∧ !(Topology.ofMesh m).hasFaces
  · rw [if_pos hf, if_pos hf]
    rfl
  rw [if_neg hf, if_neg hf]
  obtain ⟨u, hu, hflat⟩ | ⟨e, he, hflat⟩ := flat_ensureComplete_cases (m := m) hr
  · rw [hflat, hu]
    by_cases hk : k = u.source
    · exact (congrArg GroupedChange.flat (if_pos hk)).trans (if_pos hk).symm
    · have hcomplete := flat_complete (m := m) (pruned_promote (r := u) (k := k))
      rw [flat_promote] at hcomplete
      exact (congrArg GroupedChange.flat (if_neg hk)).trans (hcomplete.trans (if_neg hk).symm)
  · have herror : (r.ensureComplete (.ofMesh m)).error? = some e := congrArg Change.error? he
    rw [hflat]
    dsimp only
    rw [herror]
    exact he

theorem Pruned.setKind (hr : r.Pruned) : (r.setKind t k).region.Pruned := by
  unfold GroupedRegion.setKind
  split
  · exact hr
  · dsimp only
    split
    · exact hr.ensureComplete
    · split
      · exact ⟨hr.ensureComplete.edges, hr.ensureComplete.faces, hr.ensureComplete.facets,
          hr.ensureComplete.cells⟩
      · exact pruned_promote.complete

/-! ## Combination -/

theorem combineError?_flat {o : SetOperator} :
    Region.combineError? t o a.flat b.flat = combineError? t o a b := by
  unfold Region.combineError? combineError?
  split
  · rfl
  · change (if !a.hasSet o.target then _ else if !b.hasSet o.target then _ else _) = _
    rw [List.find?_cons, List.find?_cons]
    cases a.hasSet o.target <;> cases b.hasSet o.target <;> rfl

theorem flat_merge {o : SetOperator} : (merge o a b).flat = Region.merge o a.flat b.flat := by
  obtain ⟨op, k⟩ := o
  by_cases hk : k = .vertex
  · subst hk
    rfl
  · rw [merge, if_neg hk, ofEntities, flat_setEntities, GroupSets.flat_combine, ← entities_flat,
      ← entities_flat]
    cases k with
    | vertex => exact absurd rfl hk
    | edge | face | facet | cell => rfl

theorem pruned_merge {o : SetOperator} : (merge o a b).Pruned := by
  unfold merge
  dsimp only
  split
  · exact pruned_setVertices
  · exact pruned_setEntities

theorem flat_combine (o : SetOperator) :
    (combine (.ofMesh m) o a b).map flat = Region.combine (.ofMesh m) o a.flat b.flat := by
  unfold combine Region.combine
  rw [combineError?_flat, ← flat_merge]
  cases combineError? (.ofMesh m) o a b with
  | some e => rfl
  | none =>
    obtain ⟨u, hu, hflat⟩ | ⟨e, he, hflat⟩ :=
      flat_complete_cases (m := m) (pruned_merge (o := o) (a := a) (b := b))
    · rw [hflat, hu]
      rfl
    · have herror : ((merge o a b).complete (.ofMesh m)).error? = some e :=
        congrArg Change.error? he
      rw [hflat, Option.elim_none, GroupedChange.toExcept, herror]
      rfl

theorem pruned_of_combine {o : SetOperator} (h : combine t o a b = .ok r) : r.Pruned := by
  have hpruned := (pruned_merge (o := o) (a := a) (b := b)).complete (t := t)
  unfold combine at h
  cases hcombine : combineError? t o a b with
  | some e => simp [hcombine] at h
  | none =>
    rw [hcombine, Option.elim_none, GroupedChange.toExcept] at h
    cases herror : ((merge o a b).complete t).error? with
    | some e => simp [herror] at h
    | none =>
      rw [herror] at h
      cases h
      exact hpruned

/-! ## What a region tells -/

theorem Pruned.flat_inj (ha : a.Pruned) (hb : b.Pruned) (h : a.flat = b.flat) : a = b := by
  obtain ⟨haedges, hafaces, hafacets, hacells⟩ := ha
  obtain ⟨hbedges, hbfaces, hbfacets, hbcells⟩ := hb
  obtain ⟨_, _, _, _, _, _, _, _, _, _, _, _, _⟩ := a
  obtain ⟨_, _, _, _, _, _, _, _, _, _, _, _, _⟩ := b
  simp only [flat, Region.mk.injEq, Extent.mk.injEq] at h
  obtain ⟨rfl, rfl, rfl, rfl, rfl, rfl, ⟨rfl, hedges, hfaces, hfacets, hcells⟩, rfl, rfl⟩ := h
  congr
  · exact haedges.flat_inj hbedges hedges
  · exact hafaces.flat_inj hbfaces hfaces
  · exact hafacets.flat_inj hbfacets hfacets
  · exact hacells.flat_inj hbcells hcells

theorem pruned_grouped (r : Region) : r.grouped.Pruned :=
  ⟨GroupSets.pruned_ofEntities _, GroupSets.pruned_ofEntities _, GroupSets.pruned_ofEntities _,
    GroupSets.pruned_ofEntities _⟩

theorem flat_grouped (r : Region) : r.grouped.flat = r := by
  simp only [flat, Region.grouped, GroupSets.flat_ofEntities]

theorem Pruned.grouped_flat (hr : r.Pruned) : r.flat.grouped = r :=
  (pruned_grouped _).flat_inj hr (flat_grouped _)

theorem Pruned.isEmpty_flat (hr : r.Pruned) : r.flat.isEmpty = r.isEmpty := by
  simp only [Region.isEmpty, Extent.isEmpty, isEmpty, flat, hr.edges.isEmpty_flat,
    hr.faces.isEmpty_flat, hr.facets.isEmpty_flat, hr.cells.isEmpty_flat]

theorem Pruned.sameEntities_flat (ha : a.Pruned) (hb : b.Pruned) :
    a.flat.sameEntities b.flat = a.sameEntities b := by
  have hsets {s t : GroupSets} (hs : s.Pruned) (ht : t.Pruned) :
      s.flat = t.flat ↔ s = t := ⟨hs.flat_inj ht, congrArg _⟩
  simp only [Region.sameEntities, sameEntities, flat, Extent.mk.injEq, hsets ha.edges hb.edges,
    hsets ha.faces hb.faces, hsets ha.facets hb.facets, hsets ha.cells hb.cells,
    Bool.decide_and, Bool.and_assoc]

theorem globalCells_flat : r.flat.globalCells t = r.globalCells t := by
  show (r.cells.entries.flatMap _).filterMap _ = r.cells.entries.flatMap _
  rw [List.filterMap_flatMap]
  congr 1
  funext e
  rw [List.filterMap_map]
  cases hg : t.group? e.1 with
  | none => exact List.filterMap_eq_nil_iff.2 fun _ _ => by simp [hg]
  | some g =>
    rw [Option.elim_some, ← List.filterMap_eq_map]
    congr 1
    funext i
    simp [hg]

end GroupedRegion

end Subdomain

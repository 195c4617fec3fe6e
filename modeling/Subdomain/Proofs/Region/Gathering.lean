import Subdomain.Proofs.Region.GroupSets

/-!
# Gathering by group

What is gathered over the groups of a mesh has the members that each group gives, and
is pruned (`mem_flat_gather`, `pruned_gather`). The vertices of sets by group, and what is
wrong with them, are those of their members one by one; for the latter the sets have to
be pruned (`verticesOf_eq`, `findSome?_setError?`).
-/

namespace Subdomain

namespace Topology

variable {t : Topology} {m : Mesh} {k : Kind} {f rest : GroupTopology → IdSet} {s : GroupSets}

theorem pruned_gather : (t.gather f).Pruned := by
  refine GroupSets.pruned_ofList fun e he => ?_
  obtain ⟨g, -, hg⟩ := List.mem_filterMap.1 he
  split at hg
  · cases hg
  · rename_i hne
    cases hg
    exact fun h => hne (SortedSet.isEmpty_iff.2 h)

theorem mem_gather {e : Nat × IdSet} :
    e ∈ ((ofMesh m).gather f).entries ↔
      e.2 ≠ ∅ ∧ ∃ g, (ofMesh m).group? e.1 = some g ∧ e.2 = f g := by
  have hlisted {e : Nat × IdSet} :
      e ∈ ((ofMesh m).groups.filterMap fun g =>
        if (f g).isEmpty then none else some (g.index, f g)) ↔
      e.2 ≠ ∅ ∧ ∃ g, (ofMesh m).group? e.1 = some g ∧ e.2 = f g := by
    obtain ⟨ig, ids⟩ := e
    simp only [List.mem_filterMap, ← mem_groups_ofMesh_iff]
    constructor
    · rintro ⟨g, hg, h⟩
      split at h
      · cases h
      · rename_i hne
        cases h
        exact ⟨fun h => hne (SortedSet.isEmpty_iff.2 h), g, ⟨hg, rfl⟩, rfl⟩
    · rintro ⟨hne, g, ⟨hg, rfl⟩, rfl⟩
      exact ⟨g, hg, if_neg fun h => hne (SortedSet.isEmpty_iff.1 h)⟩
  refine (GroupSets.mem_ofList fun e he e' he' hig => ?_).trans hlisted
  -- a group of the topology is listed with one set only
  obtain ⟨-, g, hg, hids⟩ := hlisted.1 he
  obtain ⟨-, g', hg', hids'⟩ := hlisted.1 he'
  rw [hig] at hg
  cases hg.symm.trans hg'
  exact Prod.ext hig (hids.trans hids'.symm)

theorem mem_flat_gather {a : Entity} :
    a ∈ ((ofMesh m).gather f).flat ↔
      ∃ g, (ofMesh m).group? a.group = some g ∧ a.index ∈ f g := by
  simp only [GroupSets.mem_flat, GroupSets.mem_idsOf, mem_gather]
  constructor
  · rintro ⟨_, ⟨-, g, hg, rfl⟩, hi⟩
    exact ⟨g, hg, hi⟩
  · rintro ⟨g, hg, hi⟩
    exact ⟨f g, ⟨fun h => SortedSet.not_mem_empty _ (h ▸ hi), g, hg, rfl⟩, hi⟩

/-- The members of a set that is gathered through the tables of a kind, entity by entity. -/
theorem mem_flat_gather_tables (hk : k ≠ .vertex) (hc : k ≠ .cell)
    {f : EntityTable → Nat → List Nat} {a : Entity} :
    a ∈ ((ofMesh m).gather fun g => (g.table? k).elim (rest g) fun table =>
        .ofList ((s.idsOf g.index).toList.flatMap (f table))).flat ↔
      ∃ e ∈ s.flat, e.group = a.group ∧ ∃ g table, (ofMesh m).group? a.group = some g ∧
        g.table? k = some table ∧ a.index ∈ f table e.index := by
  rw [mem_flat_gather]
  simp only [GroupSets.mem_flat]
  constructor
  · rintro ⟨g, hg, ha⟩
    obtain ⟨table, ht⟩ := g.exists_table? hk hc
    rw [ht, Option.elim_some, SortedSet.mem_ofList, index_of_group? hg] at ha
    obtain ⟨i, hi, hmem⟩ := List.mem_flatMap.1 ha
    exact ⟨⟨a.group, i⟩, hi, rfl, g, table, hg, ht, hmem⟩
  · rintro ⟨e, he, hgroup, g, table, hg, ht, hmem⟩
    refine ⟨g, hg, ?_⟩
    rw [ht, Option.elim_some, SortedSet.mem_ofList, index_of_group? hg, ← hgroup]
    exact List.mem_flatMap.2 ⟨e.index, he, hmem⟩

/-! ## The steps of a completion -/

theorem verticesOf_eq : t.verticesOf k s = t.incidentVertices k s.flat := by
  ext v
  rw [mem_incidentVertices, verticesOf, SortedSet.mem_ofList]
  simp only [List.mem_flatMap, mem_entityVertices, GroupSets.mem_flat, GroupSets.mem_idsOf]
  constructor
  · rintro ⟨e, he, hv⟩
    cases hg : t.group? e.1 with
    | none => simp [hg] at hv
    | some g =>
      rw [hg, Option.elim_some] at hv
      obtain ⟨i, hi, hv⟩ := List.mem_flatMap.1 hv
      cases hvs : g.entity? k i with
      | none => simp [hvs] at hv
      | some vs =>
        rw [hvs, Option.getD_some] at hv
        exact ⟨⟨e.1, i⟩, ⟨e.2, he, hi⟩, g, vs, hg, hvs, hv⟩
  · rintro ⟨a, ⟨ids, he, hi⟩, g, vs, hg, hvs, hv⟩
    refine ⟨_, he, ?_⟩
    rw [hg, Option.elim_some]
    exact List.mem_flatMap.2 ⟨a.index, hi, by rwa [hvs, Option.getD_some]⟩

theorem mem_within {vertices : IdSet} {items : List (List Nat)} {i : Nat} :
    i ∈ vertices.within items ↔ ∃ vs, items[i]? = some vs ∧ ∀ v ∈ vs, v ∈ vertices := by
  simp [IdSet.within, List.mem_zipIdx_iff_getElem?]

/-- The first wrong index of a set is wrong as its first wrong entity is; in a group that the
topology does not have that is the first one, which a set that is not empty has. -/
theorem findSome?_entityError? {e : Nat × IdSet} (he : e.2 ≠ ∅) :
    (e.2.toList.map (Entity.mk e.1)).findSome? (t.entityError? k) = t.setError? k e := by
  obtain ⟨ig, ids⟩ := e
  rw [List.findSome?_map, setError?]
  cases hg : t.group? ig with
  | none =>
    cases hids : ids.toList with
    | nil => exact absurd (SortedSet.isEmpty_iff.1 (List.isEmpty_iff.2 hids)) he
    | cons i is => simp [entityError?, hg]
  | some g =>
    rw [Option.elim_some]
    induction ids.toList with
    | nil => rfl
    | cons i is ih =>
      rw [List.findSome?_cons, List.find?_cons, ih]
      by_cases hi : i < g.count k
      · have hle : ¬ g.count k ≤ i := by omega
        simp [entityError?, hg, hi, hle]
      · have hle : decide (g.count k ≤ i) = true := decide_eq_true (by omega)
        have herror : t.entityError? k ⟨ig, i⟩ = some (if k = .cell then
            .invalidCellIndex i (g.count k) else .invalidEntityIndex k ig i (g.count k)) := by
          unfold entityError?
          rw [hg]
          exact (if_neg hi).trans (apply_ite some _ _ _).symm
        simp only [Function.comp_apply, herror, hle, Option.map_some]

/-- What is wrong with some sets is what is wrong with the first wrong entity of them. -/
theorem findSome?_setError? (hs : s.Pruned) :
    s.entries.findSome? (t.setError? k) = s.flat.toList.findSome? (t.entityError? k) := by
  obtain ⟨es, hsorted⟩ := s
  show es.findSome? _ = (es.flatMap _).findSome? _
  replace hs : ∀ e ∈ es, e.2 ≠ ∅ := hs
  clear hsorted
  induction es with
  | nil => rfl
  | cons e es ih =>
    obtain ⟨he, hes⟩ := List.forall_mem_cons.1 hs
    rw [List.flatMap_cons, List.findSome?_append, findSome?_entityError? he, ← ih hes,
      List.findSome?_cons]
    cases t.setError? k e <;> rfl

end Topology

end Subdomain

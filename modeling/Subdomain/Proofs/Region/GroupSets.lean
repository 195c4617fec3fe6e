import Subdomain.Region.Grouped
import Subdomain.Proofs.Region.Combination

/-!
# Sets by group and their members

Pruned sets by group are determined by their members (`Pruned.flat_inj`), so they are
another way to write sets of entities (`flat_ofEntities`, `ofEntities_flat`). Pruning,
set operations and what is gathered over the groups of a mesh are described by the
members, and the last two are pruned whatever they are made of.
-/

namespace Subdomain

namespace GroupSets

variable {s t : GroupSets} {ig i : Nat} {ids : IdSet}

theorem idsOf_of_mem (h : (ig, ids) ∈ s.entries) : s.idsOf ig = ids := by
  rw [idsOf, get?_eq_some_iff.2 h, Option.getD_some]

theorem ext_entries (h : ∀ e, e ∈ s.entries ↔ e ∈ t.entries) : s = t := by
  obtain ⟨es, hs⟩ := s
  obtain ⟨es', ht⟩ := t
  have hnodup {es : List (Nat × IdSet)} (hes : es.Pairwise (·.1 < ·.1)) : es.Nodup :=
    hes.imp fun hlt he => absurd (he ▸ hlt) (Nat.lt_irrefl _)
  congr
  exact ((List.perm_ext_iff_of_nodup (hnodup hs) (hnodup ht)).2 h).eq_of_pairwise
    (fun a b _ _ hab hba => absurd (Nat.lt_trans hab hba) (Nat.lt_irrefl _)) hs ht

/-! ## Pruned sets -/

theorem Pruned.mem_entries_iff (hs : s.Pruned) :
    (ig, ids) ∈ s.entries ↔ ids ≠ ∅ ∧ ∀ i, i ∈ ids ↔ ⟨ig, i⟩ ∈ s.flat := by
  simp only [mem_flat]
  constructor
  · intro h
    refine ⟨hs _ h, fun i => ?_⟩
    rw [idsOf_of_mem h]
  · rintro ⟨hne, hids⟩
    obtain rfl : ids = s.idsOf ig := SortedSet.ext hids
    cases hget : s.get? ig with
    | none => exact absurd (by rw [idsOf, hget, Option.getD_none]) hne
    | some ids =>
      have hmem := get?_eq_some_iff.1 hget
      rwa [idsOf_of_mem hmem]

theorem Pruned.flat_inj (hs : s.Pruned) (ht : t.Pruned) (h : s.flat = t.flat) : s = t :=
  ext_entries fun _ => by rw [hs.mem_entries_iff, ht.mem_entries_iff, h]

theorem pruned_empty : (∅ : GroupSets).Pruned := fun _ he => absurd he not_mem_empty

theorem pruned_prune : s.prune.Pruned := by
  intro e he hempty
  have hne := (List.mem_filter.1 he).2
  rw [SortedSet.isEmpty_iff.2 hempty] at hne
  cases hne

theorem pruned_ofList {es : List (Nat × IdSet)} (h : ∀ e ∈ es, e.2 ≠ ∅) : (ofList es).Pruned :=
  fun e he => h e (mem_of_mem_ofList he)

theorem flat_prune : s.prune.flat = s.flat := by
  ext e
  simp only [mem_flat, mem_idsOf, prune, List.mem_filter]
  refine exists_congr fun ids => and_congr_left fun hi => and_iff_left_of_imp fun _ => ?_
  rw [Bool.not_eq_true', ← Bool.not_eq_true, SortedSet.isEmpty_iff]
  rintro rfl
  exact SortedSet.not_mem_empty _ hi

theorem Pruned.isEmpty_flat (hs : s.Pruned) : s.flat.isEmpty = s.isEmpty := by
  have hflat : s.flat.isEmpty = true ↔ s.isEmpty = true := by
    rw [SortedSet.isEmpty_iff, isEmpty, List.isEmpty_iff]
    constructor
    · intro h
      rw [hs.flat_inj pruned_empty h]
      rfl
    · intro h
      exact congrArg flat (ext_entries (t := ∅) fun e => by rw [h]; rfl)
  exact Bool.eq_iff_iff.2 hflat

theorem size_flat : s.flat.size = s.size := by
  show (s.entries.flatMap _).length = total _
  induction s.entries with
  | nil => rfl
  | cons e es ih =>
    rw [List.flatMap_cons, List.length_append, ih, List.length_map, List.map_cons, total_cons]
    rfl

/-! ## Sets of entities -/

theorem pruned_ofEntities (s : EntitySet) : (ofEntities s).Pruned := by
  intro e he hempty
  obtain ⟨hig, hids⟩ := mem_tabulate.1 he
  obtain ⟨a, ha, hgroup⟩ := EntitySet.mem_groups.1 hig
  have hmem : a.index ∈ e.2 := by
    rw [hids, SortedSet.mem_ofList, EntitySet.mem_ofGroup, ← hgroup]
    exact ha
  exact SortedSet.not_mem_empty _ (hempty ▸ hmem)

theorem flat_ofEntities (s : EntitySet) : (ofEntities s).flat = s := by
  ext a
  rw [mem_flat, ofEntities, mem_idsOf_tabulate, SortedSet.mem_ofList, EntitySet.mem_ofGroup]
  exact and_iff_right_of_imp fun ha => EntitySet.mem_groups.2 ⟨a, ha, rfl⟩

theorem ofEntities_flat (h : s.Pruned) : ofEntities s.flat = s :=
  (pruned_ofEntities _).flat_inj h (flat_ofEntities _)

/-! ## Set operations -/

theorem flat_combine (o : SetOp) : (combine o s t).flat = o.apply s.flat t.flat := by
  have hgroups {s : GroupSets} {ig i : Nat} (hi : i ∈ s.idsOf ig) : ig ∈ s.groups := by
    obtain ⟨ids, hmem, -⟩ := mem_idsOf.1 hi
    exact SortedSet.mem_ofList.2 (List.mem_map.2 ⟨_, hmem, rfl⟩)
  ext a
  rw [mem_flat, combine, mem_idsOf_tabulate, SetOp.mem_apply, SetOp.mem_apply, mem_flat, mem_flat,
    SortedSet.mem_union]
  exact and_iff_right_of_imp fun h => h.or.imp hgroups hgroups

end GroupSets

end Subdomain

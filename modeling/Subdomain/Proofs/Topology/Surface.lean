import Mathlib.Logic.ExistsUnique
import Subdomain.Proofs.Topology.Connectivity

/-!
# The surface

A table counts how often an entity is used, once for every local entity of a cell
that has its vertices (`uses_ofCells`). The surface adds these counts up over the
groups of the highest dimension. A count of one says that just one place in the
mesh, a local facet of a cell of a group, has the vertices of the facet: so a facet
that two groups share is not on the surface, although each of them numbers it
(`surface_usedOnce`).
-/

namespace Subdomain

/-! ## Tallies -/

/-- `n` is the number of indices with `P`, as far as none and one are concerned. -/
structure Tallies {ι : Type} (n : Nat) (P : ι → Prop) : Prop where
  none : n = 0 ↔ ∀ i, ¬ P i
  one : n = 1 ↔ ∃! i, P i

namespace Tallies

variable {ι κ : Type} {a b n : Nat}

theorem congr {P Q : ι → Prop} (h : Tallies n P) (hPQ : ∀ i, P i ↔ Q i) : Tallies n Q := by
  obtain rfl : P = Q := funext fun i => propext (hPQ i)
  exact h

/-- The indices that begin with zero are tallied apart from those that begin with a successor. -/
theorem cons {P : Nat × ι → Prop} (ha : Tallies a fun i => P (0, i))
    (hb : Tallies b fun p : Nat × ι => P (p.1 + 1, p.2)) : Tallies (a + b) P where
  none := by
    rw [Nat.add_eq_zero_iff, ha.none, hb.none]
    constructor
    · rintro ⟨hfirst, hrest⟩ ⟨_ | k, i⟩
      · exact hfirst i
      · exact hrest (k, i)
    · intro h
      exact ⟨fun i => h (0, i), fun p => h (p.1 + 1, p.2)⟩
  one := by
    have hsplit : a + b = 1 ↔ (a = 1 ∧ b = 0) ∨ (a = 0 ∧ b = 1) := by omega
    rw [hsplit, ha.none, ha.one, hb.none, hb.one]
    constructor
    · rintro (⟨⟨i, hi, huniq⟩, hrest⟩ | ⟨hfirst, ⟨⟨k, i⟩, hi, huniq⟩⟩)
      · refine ⟨(0, i), hi, ?_⟩
        rintro ⟨_ | k, j⟩ hj
        · rw [huniq j hj]
        · exact absurd hj (hrest (k, j))
      · refine ⟨(k + 1, i), hi, ?_⟩
        rintro ⟨_ | k', j⟩ hj
        · exact absurd hj (hfirst j)
        · cases huniq (k', j) hj
          rfl
    · rintro ⟨⟨_ | k, i⟩, hi, huniq⟩
      · refine .inl ⟨⟨i, hi, fun j hj => congrArg Prod.snd (huniq (0, j) hj)⟩, fun p hp => ?_⟩
        cases huniq (p.1 + 1, p.2) hp
      · refine .inr ⟨fun j hj => ?_, ⟨(k, i), hi, fun p hp => ?_⟩⟩
        · cases huniq (0, j) hj
        · cases huniq (p.1 + 1, p.2) hp
          rfl

theorem zero {P : ι → Prop} (h : ∀ i, ¬ P i) : Tallies 0 P where
  none := iff_of_true rfl h
  one := iff_of_false (by decide) fun ⟨i, hi, _⟩ => h i hi

/-- Numbers of a list that tally add up to one that tallies with the place in the list in front. -/
theorem total {α : Type} {l : List α} {f : α → Nat} {P : α → ι → Prop}
    (h : ∀ x ∈ l, Tallies (f x) (P x)) :
    Tallies (total (l.map f)) fun p : Nat × ι => ∃ x, l[p.1]? = some x ∧ P x p.2 := by
  induction l with
  | nil => exact zero (by simp)
  | cons x l ih =>
    obtain ⟨hx, hl⟩ := List.forall_mem_cons.1 h
    exact cons (hx.congr fun i => by simp) ((ih hl).congr fun p => by simp)

theorem count {α : Type} [BEq α] [LawfulBEq α] (l : List α) (x : α) :
    Tallies (l.count x) fun i : Nat => l[i]? = some x := by
  induction l with
  | nil => exact zero (by simp)
  | cons y l ih =>
    by_cases hy : y = x
    · subst hy
      have hfirst : (y :: l)[0]? = some y := rfl
      rw [List.count_cons_self]
      refine ⟨iff_of_false (Nat.succ_ne_zero _) fun h => h 0 hfirst, ?_⟩
      rw [Nat.add_eq_right, ih.none]
      constructor
      · intro h
        refine ⟨0, hfirst, fun i hi => ?_⟩
        cases i with
        | zero => rfl
        | succ i => exact absurd hi (h i)
      · rintro ⟨i, -, huniq⟩ j hj
        have := huniq (j + 1) hj
        have := huniq 0 hfirst
        omega
    · rw [List.count_cons_of_ne hy]
      have hzero : ¬ (y :: l)[0]? = some x := fun h => hy (Option.some.inj h)
      refine ⟨ih.none.trans ⟨fun h i hi => ?_, fun h i => h (i + 1)⟩, ih.one.trans ⟨?_, ?_⟩⟩
      · cases i with
        | zero => exact hzero hi
        | succ i => exact h i hi
      · rintro ⟨i, hi, huniq⟩
        refine ⟨i + 1, hi, fun j hj => ?_⟩
        cases j with
        | zero => exact absurd hj hzero
        | succ j => rw [huniq j hj]
      · rintro ⟨i, hi, huniq⟩
        cases i with
        | zero => exact absurd hi hzero
        | succ i => exact ⟨i, hi, fun j hj => Nat.succ.inj (huniq (j + 1) hj)⟩

end Tallies

/-! ## Uses -/

theorem total_filter {α : Type} {l : List α} {p : α → Bool} {f : α → Nat} :
    total ((l.filter p).map f) = total (l.map fun x => if p x then f x else 0) := by
  induction l with
  | nil => rfl
  | cons x l ih => cases hx : p x <;> simp [hx, ih]

namespace EntityTable

variable {t : EntityTable} {c : Nat} {k : List Nat} {l positions cells : List (List Nat)}
  (vs : List Nat)

/-- Entering an entity is one more use of it. -/
theorem uses_enter (h : t.owners.length = t.entities.length) :
    (t.enter c k).1.owners.length = (t.enter c k).1.entities.length ∧
      (t.enter c k).1.uses vs = t.uses vs + [k].count vs := by
  have hfound {id : Nat} {k : List Nat} (hid : t.entities.idxOf? k = some id) :
      id < t.owners.length ∧ t.entities[id]? = some k := by
    obtain ⟨hlt, hk, -⟩ := List.findIdx?_eq_some_iff_getElem.1 hid
    exact ⟨h ▸ hlt, by rw [List.getElem?_eq_getElem hlt, beq_iff_eq.1 hk]⟩
  unfold enter
  split
  · rename_i id hid
    refine ⟨by rw [List.length_modify, h], ?_⟩
    unfold uses ownersOf
    by_cases hk : k = vs
    · subst hk
      simp [hid, (hfound hid).1]
    · cases hvs : t.entities.idxOf? vs with
      | none => simp [hk]
      | some id' =>
        have hne : id ≠ id' := by
          rintro rfl
          exact hk (Option.some.inj ((hfound hid).2.symm.trans (hfound hvs).2))
        simp [hk, hne]
  · rename_i hid
    refine ⟨by simp [h], ?_⟩
    have happend : (t.entities ++ [k]).idxOf? vs =
        (t.entities.idxOf? vs).or (if k = vs then some t.entities.length else none) := by
      rw [List.idxOf?, List.findIdx?_append]
      by_cases hk : k = vs <;> simp [hk]
    unfold uses ownersOf
    rw [happend]
    cases hvs : t.entities.idxOf? vs with
    | some id =>
      have hne : k ≠ vs := by
        rintro rfl
        cases hid.symm.trans hvs
      simp [hne, List.getElem?_append_left (hfound hvs).1]
    | none => by_cases hk : k = vs <;> simp [hk, ← h]

theorem uses_enterAll (h : t.owners.length = t.entities.length) :
    (enterAll c t l).1.owners.length = (enterAll c t l).1.entities.length ∧
      (enterAll c t l).1.uses vs = t.uses vs + l.count vs := by
  induction l generalizing t with
  | nil => exact ⟨h, rfl⟩
  | cons k l ih =>
    obtain ⟨hlength, huses⟩ := uses_enter (c := c) (k := k) vs h
    obtain ⟨hlength', huses'⟩ := ih hlength
    refine ⟨hlength', ?_⟩
    rw [enterAll, ← List.singleton_append, List.count_append, ← Nat.add_assoc, ← huses]
    exact huses'

theorem uses_enterCells (h : t.owners.length = t.entities.length) :
    (enterCells positions c t cells).uses vs = t.uses vs +
      total (cells.map fun cell => (positions.map (key cell)).count vs) := by
  induction cells generalizing t c with
  | nil => rfl
  | cons cell cells ih =>
    obtain ⟨hlength, huses⟩ :=
      uses_enterAll (c := c) (l := positions.map (key cell)) vs h
    rw [enterCells, List.map_cons, total_cons, ← Nat.add_assoc, ← huses]
    exact ih hlength

/-- How often an entity is used: as often as a local entity of a cell has its vertices. -/
theorem uses_ofCells : (ofCells positions cells).uses vs =
    total (cells.map fun cell => (positions.map (key cell)).count vs) := by
  unfold ofCells
  split
  · rename_i hp
    have hnil : positions = [] := by simpa using hp
    subst hnil
    induction cells with
    | nil => rfl
    | cons cell cells ih => exact ih.trans (Nat.zero_add _).symm
  · rw [uses_enterCells vs rfl]
    exact Nat.zero_add _

end EntityTable

/-! ## The surface of a mesh -/

theorem le_foldl_max {l : List Nat} {a : Nat} :
    a ≤ l.foldl max a ∧ ∀ n ∈ l, n ≤ l.foldl max a := by
  induction l generalizing a with
  | nil => exact ⟨Nat.le_refl a, fun n hn => nomatch hn⟩
  | cons b l ih =>
    obtain ⟨hstart, hmem⟩ := ih (a := max a b)
    refine ⟨Nat.le_trans (Nat.le_max_left a b) hstart, fun n hn => ?_⟩
    rcases List.mem_cons.1 hn with rfl | hn
    · exact Nat.le_trans (Nat.le_max_right a n) hstart
    · exact hmem n hn

theorem foldl_max_mem {l : List Nat} {a : Nat} : l.foldl max a = a ∨ l.foldl max a ∈ l := by
  induction l generalizing a with
  | nil => exact .inl rfl
  | cons b l ih =>
    rw [List.foldl_cons]
    rcases ih (a := max a b) with h | h
    · rw [h]
      rcases Nat.le_total a b with hle | hle
      · rw [Nat.max_eq_right hle]
        exact .inr List.mem_cons_self
      · exact .inl (Nat.max_eq_left hle)
    · exact .inr (List.mem_cons_of_mem b h)

/-- A place holds the vertices `vs`: local facet `j` of cell `c` of group `ig`, in a group of
dimension `dim`, has them. -/
def Mesh.FacetAt (m : Mesh) (dim : Nat) (vs : List Nat) : Nat × Nat × Nat → Prop
  | (ig, c, j) => ∃ g cell ps, m.groups[ig]? = some g ∧ g.element.dim = dim ∧
    g.cells[c]? = some cell ∧ g.element.facets[j]? = some ps ∧ EntityTable.key cell ps = vs

namespace Topology

variable {m : Mesh}

theorem dim_le_topDim {g : ElementGroup} (hg : g ∈ m.groups) :
    g.element.dim ≤ (ofMesh m).topDim := by
  obtain ⟨ig, hig⟩ := List.mem_iff_getElem?.1 hg
  obtain ⟨offset, hgroup⟩ := exists_group?_of_group hig
  exact le_foldl_max.2 _ (List.mem_map.2 ⟨_, List.mem_of_getElem? hgroup, rfl⟩)

theorem exists_dim_eq_topDim (h : m.groups ≠ []) :
    ∃ g ∈ m.groups, g.element.dim = (ofMesh m).topDim := by
  rcases foldl_max_mem (l := (ofMesh m).groups.map (·.element.dim)) (a := 0) with hzero | hmem
  · obtain ⟨g, hg⟩ := List.exists_mem_of_ne_nil _ h
    have hle := dim_le_topDim hg
    have hzero : (ofMesh m).topDim = 0 := hzero
    exact ⟨g, hg, by omega⟩
  · obtain ⟨g, hg, hdim⟩ := List.mem_map.1 hmem
    obtain ⟨ig, hig⟩ := List.mem_iff_getElem?.1 hg
    obtain ⟨e, offset, he, rfl⟩ := exists_group_of_group? hig
    exact ⟨e, List.mem_of_getElem? he, hdim⟩

theorem tallies_group (ig offset dim : Nat) (e : ElementGroup) (vs : List Nat) :
    Tallies (if e.element.dim = dim then (GroupTopology.ofGroup ig e offset).facets.uses vs else 0)
      fun q : Nat × Nat => e.element.dim = dim ∧ ∃ cell, e.cells[q.1]? = some cell ∧
        (e.element.facets.map (EntityTable.key cell))[q.2]? = some vs := by
  by_cases hdim : e.element.dim = dim
  · have huses : (GroupTopology.ofGroup ig e offset).facets.uses vs = total (e.cells.map fun cell =>
        (e.element.facets.map (EntityTable.key cell)).count vs) := EntityTable.uses_ofCells vs
    have hcells := Tallies.total (l := e.cells) fun cell _ =>
      Tallies.count (e.element.facets.map (EntityTable.key cell)) vs
    rw [if_pos hdim, huses]
    exact hcells.congr fun q => (and_iff_right hdim).symm
  · rw [if_neg hdim]
    exact .zero fun q hq => hdim hq.1

/-- The uses of a facet in the groups of a dimension tally with the places that hold its vertices. -/
theorem tallies_facetUses (dim : Nat) (vs : List Nat) :
    Tallies (facetUses (ofMesh m).groups dim vs) (m.FacetAt dim vs) := by
  have hgroup : ∀ g ∈ (ofMesh m).groups, Tallies
      (if g.element.dim = dim then g.facets.uses vs else 0)
      fun q : Nat × Nat => g.element.dim = dim ∧ ∃ cell, g.cells[q.1]? = some cell ∧
        (g.element.facets.map (EntityTable.key cell))[q.2]? = some vs := by
    intro g hg
    obtain ⟨ig, hig⟩ := List.mem_iff_getElem?.1 hg
    obtain ⟨e, offset, -, rfl⟩ := exists_group_of_group? hig
    exact tallies_group ig offset dim e vs
  have hsum := Tallies.total hgroup
  rw [facetUses, total_filter]
  simp only [decide_eq_true_eq]
  refine hsum.congr fun ⟨ig, c, j⟩ => ?_
  simp only [Mesh.FacetAt, List.getElem?_map, Option.map_eq_some_iff]
  constructor
  · rintro ⟨g, hg, hdim, cell, hcell, ps, hps, hkey⟩
    obtain ⟨e, offset, he, rfl⟩ := exists_group_of_group? hg
    exact ⟨e, cell, ps, he, hdim, hcell, hps, hkey⟩
  · rintro ⟨e, cell, ps, he, hdim, hcell, hps, hkey⟩
    obtain ⟨offset, hg⟩ := exists_group?_of_group he
    exact ⟨_, hg, hdim, cell, hcell, ps, hps, hkey⟩

/-- There is one list of surface facets for every group, ascending. It holds the facets of a group
whose vertices just one place in the mesh has, among all groups of the highest dimension, if the
group is of that dimension. -/
theorem surface_usedOnce (m : Mesh) :
    (ofMesh m).surface.length = m.groupCount ∧
    (∀ g ∈ m.groups, g.element.dim ≤ (ofMesh m).topDim) ∧
    (m.groups ≠ [] → ∃ g ∈ m.groups, g.element.dim = (ofMesh m).topDim) ∧
    ∀ ig g, (ofMesh m).group? ig = some g → ∃ ids, (ofMesh m).surface[ig]? = some ids ∧
      ids.Pairwise (· < ·) ∧ ∀ f, f ∈ ids ↔ g.element.dim = (ofMesh m).topDim ∧
        ∃ vs, g.facets.vertices? f = some vs ∧ ∃! p, m.FacetAt (ofMesh m).topDim vs p := by
  refine ⟨?_, fun g => dim_le_topDim, exists_dim_eq_topDim, fun ig g hg => ?_⟩
  · simp [ofMesh, Mesh.cellOffsets, Mesh.length_offsetsFrom, Mesh.groupCount]
  have hids : (ofMesh m).surface[ig]? =
      some (onceUsed (ofMesh m).groups (ofMesh m).topDim g) := by
    show ((ofMesh m).groups.map _)[ig]? = _
    rw [List.getElem?_map, show (ofMesh m).groups[ig]? = some g from hg]
    rfl
  refine ⟨_, hids, ?_, fun f => ?_⟩
  · unfold onceUsed
    split
    · exact List.pairwise_lt_range.filter _
    · exact .nil
  · unfold onceUsed
    split
    · rename_i hdim
      rw [List.mem_filter, List.mem_range, decide_eq_true_eq, and_iff_right hdim]
      constructor
      · rintro ⟨hlt, huses⟩
        obtain ⟨vs, hvs⟩ : ∃ vs, g.facets.vertices? f = some vs := ⟨_, List.getElem?_eq_getElem hlt⟩
        rw [hvs, Option.elim_some] at huses
        exact ⟨vs, hvs, (tallies_facetUses _ vs).one.1 huses⟩
      · rintro ⟨vs, hvs, hunique⟩
        rw [hvs, Option.elim_some]
        exact ⟨(List.getElem?_eq_some_iff.1 hvs).1, (tallies_facetUses _ vs).one.2 hunique⟩
    · rename_i hdim
      exact iff_of_false List.not_mem_nil fun h => hdim h.1

/-- A square and a triangle beside it: each numbers the edge between them, from vertex 1 to 3. -/
example :
    let square := Mesh.ofGrid "square" 2 .quadrilateral
      [⟨0, 0, 0⟩, ⟨1, 0, 0⟩, ⟨0, 1, 0⟩, ⟨1, 1, 0⟩, ⟨2, 0, 0⟩] [[0, 1, 3, 2]]
    let t := ofMesh (square.pushGroup ⟨2, .triangle, [1, 4, 3]⟩)
    t.groups.map (·.facets.entities) =
        [[[0, 1], [1, 3], [2, 3], [0, 2]], [[1, 4], [3, 4], [1, 3]]] ∧
      t.surface = [[0, 2, 3], [0, 1]] := by
  decide +kernel

end Topology

end Subdomain

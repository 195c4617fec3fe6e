import Mathlib.Data.List.Induction
import Subdomain.Proofs.Topology.Connectivity

/-!
# How entities are numbered

The edges, faces and facets of a group are numbered from zero in the order in which the
cells show them, and the look-ups of a table are inverse to each other: from a cell to
its entities, from an entity to its vertices and to the cells that own it
(`EntityTable.Numbers`). Owners are only ever appended, by cells that are entered in
turn, and so they ascend (`OwnedUpTo`).
-/

namespace Subdomain

namespace EntityTable

variable {t : EntityTable} {positions cells : List (List Nat)} {c : Nat}

/-! ## The order of first show -/

/-- The vertices of the local entities of all cells, cell by cell. -/
def shown (positions cells : List (List Nat)) : List (List Nat) :=
  cells.flatMap fun cell => positions.map (key cell)

theorem pairwise_idxOf_eraseDups (l : List (List Nat)) :
    l.eraseDups.Pairwise fun vs ws => l.idxOf vs < l.idxOf ws := by
  induction l using List.reverseRecOn with
  | nil => exact .nil
  | append_singleton l k ih =>
    have hfront {vs : List Nat} (h : vs ∈ l.eraseDups) : (l ++ [k]).idxOf vs = l.idxOf vs := by
      rw [List.idxOf_append, if_pos (List.mem_eraseDups.1 h)]
    have hold : l.eraseDups.Pairwise fun vs ws => (l ++ [k]).idxOf vs < (l ++ [k]).idxOf ws := by
      refine ih.imp_of_mem fun {vs ws} hvs hws h => ?_
      rwa [hfront hvs, hfront hws]
    rw [eraseDups_concat]
    split
    · exact hold
    · rename_i hk
      refine List.pairwise_append.2 ⟨hold, List.pairwise_singleton _ _, fun vs hvs ws hws => ?_⟩
      rw [List.mem_singleton.1 hws, hfront hvs, List.idxOf_append, if_neg hk]
      exact Nat.lt_add_left _ (List.idxOf_lt_length_of_mem (List.mem_eraseDups.1 hvs))

/-! ## Owners -/

/-- The cells that own an entity ascend, and none is beyond cell `c`. -/
def OwnedUpTo (c : Nat) (owners : List (List Nat)) : Prop :=
  ∀ cs ∈ owners, cs.Pairwise (· ≤ ·) ∧ ∀ a ∈ cs, a ≤ c

theorem OwnedUpTo.mono {owners : List (List Nat)} {c' : Nat} (h : OwnedUpTo c owners)
    (hc : c ≤ c') : OwnedUpTo c' owners := by
  intro cs hcs
  exact (h cs hcs).imp_right fun hle a ha => Nat.le_trans (hle a ha) hc

theorem ownedUpTo_enter {k : List Nat} (h : OwnedUpTo c t.owners) :
    OwnedUpTo c (t.enter c k).1.owners := by
  unfold enter
  split
  · rename_i id _
    intro cs hcs
    obtain ⟨i, hi⟩ := List.mem_iff_getElem?.1 hcs
    rw [List.getElem?_modify] at hi
    obtain ⟨old, hold, rfl⟩ := Option.map_eq_some_iff.1 hi
    obtain ⟨hasc, hle⟩ := h old (List.mem_of_getElem? hold)
    split
    · -- the row ends with `c` now, and `c` is not smaller than the rest of it
      refine ⟨List.pairwise_append.2 ⟨hasc, List.pairwise_singleton _ _, ?_⟩, ?_⟩
      · simpa using hle
      · simpa [or_imp, forall_and] using hle
    · exact ⟨hasc, hle⟩
  · intro cs hcs
    rcases List.mem_append.1 hcs with hcs | hcs
    · exact h cs hcs
    · rw [List.mem_singleton.1 hcs]
      simp

theorem ownedUpTo_enterAll {ks : List (List Nat)} (h : OwnedUpTo c t.owners) :
    OwnedUpTo c (enterAll c t ks).1.owners := by
  induction ks generalizing t with
  | nil => exact h
  | cons k ks ih =>
    rw [enterAll]
    exact ih (ownedUpTo_enter h)

theorem ownedUpTo_enterCells (h : OwnedUpTo c t.owners) :
    OwnedUpTo (c + cells.length) (enterCells positions c t cells).owners := by
  induction cells generalizing t c with
  | nil => exact h
  | cons cell cells ih =>
    rw [enterCells, List.length_cons, Nat.add_comm cells.length 1, ← Nat.add_assoc]
    exact ih ((ownedUpTo_enterAll h).mono (Nat.le_succ c))

theorem pairwise_ownersOf_ofCells (positions cells : List (List Nat)) (id : Nat) :
    ((ofCells positions cells).ownersOf id).Pairwise (· ≤ ·) := by
  have hempty : OwnedUpTo 0 empty.owners := fun _ h => absurd h List.not_mem_nil
  have howned : ∃ c, OwnedUpTo c (ofCells positions cells).owners := by
    unfold ofCells
    split
    · exact ⟨0, hempty⟩
    · exact ⟨_, ownedUpTo_enterCells hempty⟩
  obtain ⟨c, hc⟩ := howned
  unfold ownersOf
  cases hid : (ofCells positions cells).owners[id]? with
  | none => exact .nil
  | some cs => exact (hc cs (List.mem_of_getElem? hid)).1

/-! ## Numbers -/

/-- `vs` are the vertices of `cell` at the positions `ps`, ascending. -/
structure Spans (cell ps vs : List Nat) : Prop where
  perm : (vs.map some).Perm (ps.map (cell[·]?))
  ascending : vs.Pairwise (· ≤ ·)

theorem spans_key {cell ps : List Nat} (h : ∀ p ∈ ps, p < cell.length) :
    Spans cell ps (key cell ps) where
  perm := by
    have hall : (ps.filterMap (cell[·]?)).map some = ps.map (cell[·]?) := by
      induction ps with
      | nil => rfl
      | cons p ps ih =>
        obtain ⟨hp, hps⟩ := List.forall_mem_cons.1 h
        rw [List.filterMap_cons, List.getElem?_eq_getElem hp, List.map_cons, List.map_cons, ih hps,
          List.getElem?_eq_getElem hp]
    rw [← hall]
    exact (perm_ascending _).map some
  ascending := pairwise_ascending _

/-- The entities of `cells` at the local `positions` are numbered by `t`. -/
structure Numbers (positions cells : List (List Nat)) (t : EntityTable) : Prop where
  lt_size_iff : ∀ id, id < t.size ↔ ∃ vs, t.vertices? id = some vs
  ascending : ∀ id vs, t.vertices? id = some vs → vs.Pairwise (· ≤ ·)
  distinct : ∀ i j vs, t.vertices? i = some vs → t.vertices? j = some vs → i = j
  shown_iff : ∀ vs, vs ∈ shown positions cells ↔ ∃ id, t.vertices? id = some vs
  /-- An entity that is shown earlier has the smaller number. -/
  lt_iff : ∀ i j vs ws, t.vertices? i = some vs → t.vertices? j = some ws →
    (i < j ↔ (shown positions cells).idxOf vs < (shown positions cells).idxOf ws)
  length_ofCell : ∀ c < cells.length, (t.ofCell c).length = positions.length
  /-- The entities of a cell stand in the order of its local entities. -/
  ofCell : ∀ (c k : Nat) (cell ps : List Nat), cells[c]? = some cell → positions[k]? = some ps →
    ∃ id vs, (t.ofCell c)[k]? = some id ∧ t.vertices? id = some vs ∧ Spans cell ps vs
  ofCell_nil : ∀ c, cells.length ≤ c → t.ofCell c = []
  mem_ownersOf_iff : ∀ id c, c ∈ t.ownersOf id ↔ id ∈ t.ofCell c
  count : ∀ id c, (t.ownersOf id).count c = (t.ofCell c).count id
  ownersOf_ascending : ∀ id, (t.ownersOf id).Pairwise (· ≤ ·)
  ownersOf_ne_nil : ∀ id < t.size, t.ownersOf id ≠ []
  ownersOf_nil : ∀ id, t.size ≤ id → t.ownersOf id = []

theorem Lists.ownersOf_nil (h : Lists positions cells t) {id : Nat} (hid : t.size ≤ id) :
    t.ownersOf id = [] := by
  rw [List.eq_nil_iff_forall_not_mem]
  intro c hc
  have hlt : id < t.size := h.lt_of_mem_ofCell (h.mem_ownersOf_iff.1 hc)
  omega

/-- Of two entities of a table, that with the smaller number is shown first. -/
theorem lt_iff_idxOf_lt {i j : Nat} {vs ws : List Nat}
    (hi : (ofCells positions cells).vertices? i = some vs)
    (hj : (ofCells positions cells).vertices? j = some ws) :
    i < j ↔ (shown positions cells).idxOf vs < (shown positions cells).idxOf ws := by
  have hordered := pairwise_idxOf_eraseDups (shown positions cells)
  rw [shown, ← entities_ofCells, List.pairwise_iff_getElem] at hordered
  obtain ⟨hilt, rfl⟩ := List.getElem?_eq_some_iff.1 hi
  obtain ⟨hjlt, rfl⟩ := List.getElem?_eq_some_iff.1 hj
  constructor
  · exact hordered i j hilt hjlt
  · intro hlt
    rcases Nat.lt_trichotomy i j with hij | hij | hij
    · exact hij
    · subst hij
      exact absurd hlt (Nat.lt_irrefl _)
    · exact absurd hlt (Nat.lt_asymm (hordered j i hjlt hilt hij))

theorem numbers_ofCells (h : ∀ cell ∈ cells, ∀ ps ∈ positions, ∀ p ∈ ps, p < cell.length) :
    Numbers positions cells (ofCells positions cells) := by
  have hlists := lists_ofCells positions cells
  have hshown (vs : List Nat) :
      vs ∈ shown positions cells ↔ vs ∈ (ofCells positions cells).entities := by
    rw [entities_ofCells, List.mem_eraseDups, shown]
  exact {
    lt_size_iff id := by simp [size, vertices?, ← Option.isSome_iff_exists]
    ascending id vs hvs := by
      obtain ⟨c, cell, -, -, ps, -, rfl⟩ := hlists.exists_cell hvs
      exact pairwise_ascending _
    distinct i j vs hi hj := by
      have hlt : i < (ofCells positions cells).entities.length :=
        (List.getElem?_eq_some_iff.1 hi).1
      exact (List.getElem?_inj hlt hlists.nodup).1 (hi.trans hj.symm)
    shown_iff vs := (hshown vs).trans List.mem_iff_getElem?
    lt_iff i j vs ws := lt_iff_idxOf_lt
    length_ofCell c hc := by
      have hrow := hlists.ofCell c cells[c] (List.getElem?_eq_getElem hc)
      simpa using congrArg List.length hrow
    ofCell c k cell ps hc hps := by
      have hk := congrArg (·[k]?) (hlists.ofCell c cell hc)
      simp only [List.getElem?_map, hps, Option.map_some] at hk
      obtain ⟨id, hid, hkey⟩ := Option.map_eq_some_iff.1 hk
      have hcell := h cell (List.mem_of_getElem? hc) ps (List.mem_of_getElem? hps)
      exact ⟨id, key cell ps, hid, hkey, spans_key hcell⟩
    ofCell_nil := hlists.ofCell_nil
    mem_ownersOf_iff id c := hlists.mem_ownersOf_iff
    count := hlists.count
    ownersOf_ascending := pairwise_ownersOf_ofCells positions cells
    ownersOf_ne_nil id hid := by
      obtain ⟨c, hc⟩ := hlists.used id hid
      exact List.ne_nil_of_mem (hlists.mem_ownersOf_iff.2 hc)
    ownersOf_nil id := hlists.ownersOf_nil }

end EntityTable

/-- In each group the edges, faces and facets are numbered by their tables: from zero on, as the
cells first show them. From a cell one finds its entities in their local order, and from an entity
its vertices and, ascending, the cells that have it, as often as they do. -/
theorem GroupTopology.numbers_ofGroup (g : ElementGroup) (index offset : Nat) :
    let t := GroupTopology.ofGroup index g offset
    t.edges.Numbers g.element.edges g.cells ∧ t.faces.Numbers g.element.faces g.cells ∧
      t.facets.Numbers g.element.facets g.cells := by
  have hlt {positions : List (List Nat)}
      (h : ∀ ps ∈ positions, ∀ p ∈ ps, p < g.element.vertexCount) :
      ∀ cell ∈ g.cells, ∀ ps ∈ positions, ∀ p ∈ ps, p < cell.length := by
    intro cell hcell
    rwa [ElementGroup.length_of_mem_cells hcell]
  exact ⟨EntityTable.numbers_ofCells (hlt Element.edges_lt),
    EntityTable.numbers_ofCells (hlt Element.faces_lt),
    EntityTable.numbers_ofCells (hlt Element.facets_lt)⟩

end Subdomain

import Subdomain.Topology.Table

/-!
# What an entity table lists

Entering the local entities of one cell after the other keeps the invariant
`Entered`: the numbers of a cell stand for the vertices of its local entities, no
two entities have the same vertices, and cells are counted as owners as often as
the entity is counted in them. `EntityTable.Lists` says the same of the finished
table, by its look-ups. Entities are numbered in the order in which the cells first
show them (`entities_ofCells`).
-/

namespace Subdomain

namespace EntityTable

/-- The entities `es` and their `owners`, entered for cells whose entities are numbered by `rows`
and have the vertices `keys`. -/
structure Entered (es owners rows : List (List Nat)) (keys : List (List (List Nat))) : Prop where
  keyed : rows.map (·.map (es[·]?)) = keys.map (·.map some)
  nodup : es.Nodup
  length : owners.length = es.length
  count : ∀ id c : Nat, ((owners[id]?).getD []).count c = ((rows[c]?).getD []).count id
  used : ∀ id < es.length, ∃ row ∈ rows, id ∈ row

namespace Entered

variable {es owners rows : List (List Nat)} {keys : List (List (List Nat))}

theorem empty : Entered [] [] [] [] := ⟨rfl, .nil, rfl, by simp, by simp⟩

theorem lt (h : Entered es owners rows keys) {row : List Nat} (hr : row ∈ rows) {id : Nat}
    (hid : id ∈ row) : id < es.length := by
  have hrow : row.map (es[·]?) ∈ keys.map (·.map some) :=
    h.keyed ▸ List.mem_map.2 ⟨row, hr, rfl⟩
  obtain ⟨ks, -, hks⟩ := List.mem_map.1 hrow
  have hmem : es[id]? ∈ ks.map some := hks ▸ List.mem_map.2 ⟨id, hid, rfl⟩
  obtain ⟨k, -, hk⟩ := List.mem_map.1 hmem
  exact (List.getElem?_eq_some_iff.1 hk.symm).1

theorem length_rows (h : Entered es owners rows keys) : rows.length = keys.length := by
  simpa using congrArg List.length h.keyed

theorem newRow (h : Entered es owners rows keys) :
    Entered es owners (rows ++ [[]]) (keys ++ [[]]) where
  keyed := by simp [h.keyed]
  nodup := h.nodup
  length := h.length
  count id c := by
    rw [h.count]
    rcases Nat.lt_trichotomy c rows.length with hc | hc | hc
    · rw [List.getElem?_append_left hc]
    · simp [hc]
    · rw [List.getElem?_eq_none (by omega), List.getElem?_eq_none (by simp; omega)]
  used id hid := by
    obtain ⟨row, hr, hmem⟩ := h.used id hid
    exact ⟨row, List.mem_append_left _ hr, hmem⟩

/-- Entity `id` is counted once more in the last cell, and nothing else changes. -/
theorem count_last {row : List Nat} {id i c : Nat} :
    (((rows ++ [row ++ [id]])[c]?).getD []).count i =
      (((rows ++ [row])[c]?).getD []).count i + if c = rows.length ∧ i = id then 1 else 0 := by
  rcases Nat.lt_trichotomy c rows.length with hc | hc | hc
  · rw [List.getElem?_append_left hc, List.getElem?_append_left hc, if_neg (by omega),
      Nat.add_zero]
  · subst hc
    by_cases hi : i = id <;> simp [List.count_append, hi, Ne.symm]
  · rw [List.getElem?_eq_none (by simp; omega), List.getElem?_eq_none (by simp; omega),
      if_neg (by omega), Nat.add_zero]

theorem used_last {row : List Nat} {id i : Nat} (h : ∃ r ∈ rows ++ [row], i ∈ r) :
    ∃ r ∈ rows ++ [row ++ [id]], i ∈ r := by
  obtain ⟨r, hr, hi⟩ := h
  rcases List.mem_append.1 hr with hr | hr
  · exact ⟨r, List.mem_append_left _ hr, hi⟩
  · rw [List.mem_singleton.1 hr] at hi
    exact ⟨row ++ [id], by simp, List.mem_append_left _ hi⟩

theorem known {row : List Nat} {ks : List (List Nat)} {key : List Nat} {id : Nat}
    (h : Entered es owners (rows ++ [row]) (keys ++ [ks])) (hid : es[id]? = some key) :
    Entered es (owners.modify id (· ++ [rows.length])) (rows ++ [row ++ [id]])
      (keys ++ [ks ++ [key]]) where
  keyed := by
    have := h.keyed
    simp only [List.map_append, List.map_cons, List.map_nil] at this ⊢
    obtain ⟨hrows, hrow⟩ := List.append_inj' this rfl
    rw [hrows, List.singleton_inj.1 hrow, hid]
  nodup := h.nodup
  length := by rw [List.length_modify, h.length]
  count i c := by
    have hlt : id < owners.length := h.length ▸ (List.getElem?_eq_some_iff.1 hid).1
    rw [count_last, ← h.count, List.getElem?_modify]
    by_cases hi : id = i
    · subst hi
      rw [List.getElem?_eq_getElem hlt]
      by_cases hc : c = rows.length <;> simp [List.count_append, hc, Ne.symm]
    · have : ¬ (c = rows.length ∧ i = id) := by omega
      simp [hi, this]
  used i hi := used_last (h.used i hi)

theorem fresh {row : List Nat} {ks : List (List Nat)} {key : List Nat}
    (h : Entered es owners (rows ++ [row]) (keys ++ [ks])) (hkey : key ∉ es) :
    Entered (es ++ [key]) (owners ++ [[rows.length]]) (rows ++ [row ++ [es.length]])
      (keys ++ [ks ++ [key]]) where
  keyed := by
    have hold : ∀ r ∈ rows ++ [row], r.map ((es ++ [key])[·]?) = r.map (es[·]?) :=
      fun r hr => List.map_congr_left fun i hi => List.getElem?_append_left (h.lt hr hi)
    have := h.keyed
    rw [← List.map_congr_left hold] at this
    simp only [List.map_append, List.map_cons, List.map_nil] at this ⊢
    obtain ⟨hrows, hrow⟩ := List.append_inj' this rfl
    rw [hrows, List.singleton_inj.1 hrow]
    simp
  nodup := List.nodup_append.2 ⟨h.nodup, by simp, fun a ha b hb e =>
    hkey (List.mem_singleton.1 hb ▸ e ▸ ha)⟩
  length := by simp [h.length]
  count i c := by
    rw [count_last, ← h.count]
    rcases Nat.lt_trichotomy i es.length with hi | hi | hi
    · rw [List.getElem?_append_left (h.length ▸ hi), if_neg (by omega), Nat.add_zero]
    · subst hi
      rw [← h.length]
      by_cases hc : c = rows.length <;> simp [hc, Ne.symm]
    · rw [List.getElem?_eq_none (by simp [h.length]; omega),
        List.getElem?_eq_none (by rw [h.length]; omega), if_neg (by omega), Nat.add_zero]
  used i hi := by
    by_cases he : i = es.length
    · exact ⟨row ++ [es.length], by simp, by simp [he]⟩
    · rw [List.length_append, List.length_singleton] at hi
      exact used_last (h.used i (by omega))

end Entered

/-! ## Entering -/

variable {t : EntityTable} {rows : List (List Nat)} {keys : List (List (List Nat))}

theorem cells_enter {c : Nat} {key : List Nat} : (t.enter c key).1.cells = t.cells := by
  unfold enter
  split <;> rfl

theorem entered_enter {row k : List Nat} {ks : List (List Nat)}
    (h : Entered t.entities t.owners (rows ++ [row]) (keys ++ [ks])) :
    Entered (t.enter rows.length k).1.entities (t.enter rows.length k).1.owners
      (rows ++ [row ++ [(t.enter rows.length k).2]]) (keys ++ [ks ++ [k]]) := by
  unfold enter
  split
  · rename_i id hid
    obtain ⟨hlt, hkey, -⟩ := List.findIdx?_eq_some_iff_getElem.1 hid
    have : t.entities[id]? = some k := by
      rw [List.getElem?_eq_getElem hlt, beq_iff_eq.1 hkey]
    exact h.known this
  · rename_i hid
    refine h.fresh fun hmem => ?_
    have := List.findIdx?_eq_none_iff.1 hid k hmem
    simp at this

theorem cells_enterAll {c : Nat} {l : List (List Nat)} :
    (enterAll c t l).1.cells = t.cells := by
  induction l generalizing t with
  | nil => rfl
  | cons k l ih =>
    rw [enterAll]
    exact ih.trans cells_enter

theorem entered_enterAll {row : List Nat} {ks l : List (List Nat)}
    (h : Entered t.entities t.owners (rows ++ [row]) (keys ++ [ks])) :
    Entered (enterAll rows.length t l).1.entities (enterAll rows.length t l).1.owners
      (rows ++ [row ++ (enterAll rows.length t l).2]) (keys ++ [ks ++ l]) := by
  induction l generalizing t row ks with
  | nil => simpa [enterAll] using h
  | cons k l ih =>
    have := ih (entered_enter (k := k) h)
    rw [enterAll]
    simpa using this

theorem entered_enterCells {positions cells : List (List Nat)} {c : Nat} (hc : c = t.cells.length)
    (h : Entered t.entities t.owners t.cells keys) :
    let u := enterCells positions c t cells
    Entered u.entities u.owners u.cells
      (keys ++ cells.map fun cell => positions.map (key cell)) := by
  induction cells generalizing t keys c with
  | nil => simpa [enterCells] using h
  | cons cell cells ih =>
    subst hc
    have hrow := entered_enterAll (l := positions.map (key cell)) h.newRow
    rw [List.nil_append, List.nil_append] at hrow
    have hcells := cells_enterAll (t := t) (c := t.cells.length) (l := positions.map (key cell))
    rw [enterCells]
    simp only [hcells]
    have he := ih (t := { (enterAll t.cells.length t (positions.map (key cell))).1 with
      cells := t.cells ++ [(enterAll t.cells.length t (positions.map (key cell))).2] })
      (c := t.cells.length + 1) (by simp) hrow
    simpa using he

/-! ## Numbers -/

theorem eraseDups_concat {l : List (List Nat)} {k : List Nat} :
    (l ++ [k]).eraseDups = if k ∈ l then l.eraseDups else l.eraseDups ++ [k] := by
  rw [List.eraseDups_append]
  by_cases h : k ∈ l <;> simp [List.removeAll, h, List.eraseDups_cons]

theorem entities_enter {c : Nat} {k : List Nat} {ks : List (List Nat)}
    (h : t.entities = ks.eraseDups) :
    (t.enter c k).1.entities = (ks ++ [k]).eraseDups := by
  have hmem : k ∈ t.entities ↔ k ∈ ks := by rw [h, List.mem_eraseDups]
  rw [eraseDups_concat, ← h]
  unfold enter
  split
  · rename_i id hid
    obtain ⟨hlt, hkey, -⟩ := List.idxOf?_eq_some_iff.1 hid
    rw [if_pos (hmem.1 (hkey ▸ List.getElem_mem hlt))]
  · rename_i hid
    rw [if_neg fun hk => List.idxOf?_eq_none_iff.1 hid (hmem.2 hk)]

theorem entities_enterAll {c : Nat} {ks l : List (List Nat)} (h : t.entities = ks.eraseDups) :
    (enterAll c t l).1.entities = (ks ++ l).eraseDups := by
  induction l generalizing t ks with
  | nil => rwa [List.append_nil]
  | cons k l ih =>
    rw [enterAll]
    simpa using ih (entities_enter (c := c) (k := k) h)

theorem entities_enterCells {positions cells : List (List Nat)} {c : Nat} {ks : List (List Nat)}
    (h : t.entities = ks.eraseDups) :
    (enterCells positions c t cells).entities =
      (ks ++ cells.flatMap fun cell => positions.map (key cell)).eraseDups := by
  induction cells generalizing t ks c with
  | nil => simpa [enterCells] using h
  | cons cell cells ih =>
    have hcell := entities_enterAll (c := c) (l := positions.map (key cell)) h
    rw [enterCells, List.flatMap_cons, ← List.append_assoc]
    exact ih hcell

/-- The entities are the local entities of the cells, without the later repeats. -/
theorem entities_ofCells (positions cells : List (List Nat)) :
    (ofCells positions cells).entities =
      (cells.flatMap fun cell => positions.map (key cell)).eraseDups := by
  unfold ofCells
  split
  · rename_i hp
    have hnil : positions = [] := by simpa using hp
    have hflat : (cells.flatMap fun cell => positions.map (key cell)) = [] := by simp [hnil]
    rw [hflat]
    rfl
  · have hempty : empty.entities = ([] : List (List Nat)).eraseDups := rfl
    exact entities_enterCells hempty

/-! ## Finished tables -/

/-- The table of the local entities at some positions of some cells, by its look-ups. -/
structure Lists (positions cells : List (List Nat)) (t : EntityTable) : Prop where
  ofCell : ∀ c cell, cells[c]? = some cell →
    (t.ofCell c).map t.vertices? = positions.map fun ps => some (key cell ps)
  ofCell_nil : ∀ c, cells.length ≤ c → t.ofCell c = []
  nodup : t.entities.Nodup
  count : ∀ id c, (t.ownersOf id).count c = (t.ofCell c).count id
  used : ∀ id < t.size, ∃ c, id ∈ t.ofCell c

theorem lists_ofCells (positions cells : List (List Nat)) :
    Lists positions cells (ofCells positions cells) := by
  unfold ofCells
  split
  · rename_i hp
    have : positions = [] := by simpa using hp
    subst this
    exact ⟨fun _ _ _ => rfl, fun _ _ => rfl, .nil, fun _ _ => rfl,
      fun id hid => absurd hid (Nat.not_lt_zero id)⟩
  · have he : Entered (enterCells positions 0 empty cells).entities
        (enterCells positions 0 empty cells).owners (enterCells positions 0 empty cells).cells
        ([] ++ cells.map fun cell => positions.map (key cell)) := entered_enterCells rfl .empty
    rw [List.nil_append] at he
    refine ⟨fun c cell hc => ?_, fun c hc => ?_, he.nodup, he.count, fun id hid => ?_⟩
    · have hrow := congrArg (·[c]?) he.keyed
      simp only [List.getElem?_map, hc, Option.map_some] at hrow
      obtain ⟨row, hr, hkeys⟩ := Option.map_eq_some_iff.1 hrow
      unfold ofCell vertices?
      rw [hr, Option.getD_some, hkeys, List.map_map]
      rfl
    · have hl := he.length_rows
      rw [List.length_map] at hl
      unfold ofCell
      rw [List.getElem?_eq_none (by omega), Option.getD_none]
    · obtain ⟨row, hr, hmem⟩ := he.used id hid
      obtain ⟨c, hc⟩ := List.mem_iff_getElem?.1 hr
      refine ⟨c, ?_⟩
      unfold ofCell
      rwa [hc, Option.getD_some]

namespace Lists

variable {positions cells : List (List Nat)}

theorem mem_ownersOf_iff (h : Lists positions cells t) {id c : Nat} :
    c ∈ t.ownersOf id ↔ id ∈ t.ofCell c := by
  rw [← List.count_pos_iff, h.count, List.count_pos_iff]

/-- An entity of a cell has the vertices of one of the local entities. -/
theorem exists_key (h : Lists positions cells t) {c id : Nat} (hid : id ∈ t.ofCell c) :
    ∃ cell, cells[c]? = some cell ∧ ∃ ps ∈ positions, t.vertices? id = some (key cell ps) := by
  rcases Nat.lt_or_ge c cells.length with hc | hc
  · have hcell := List.getElem?_eq_getElem hc
    have hmem : t.vertices? id ∈ positions.map fun ps => some (key cells[c] ps) :=
      h.ofCell c _ hcell ▸ List.mem_map.2 ⟨id, hid, rfl⟩
    obtain ⟨ps, hps, hkey⟩ := List.mem_map.1 hmem
    exact ⟨_, hcell, ps, hps, hkey.symm⟩
  · rw [h.ofCell_nil c hc] at hid
    cases hid

/-- The entities of a cell are those with the vertices of one of its local entities. -/
theorem mem_ofCell_iff (h : Lists positions cells t) {c id : Nat} :
    id ∈ t.ofCell c ↔
      ∃ cell, cells[c]? = some cell ∧ ∃ ps ∈ positions, t.vertices? id = some (key cell ps) := by
  constructor
  · exact h.exists_key
  · rintro ⟨cell, hcell, ps, hps, hid⟩
    have hmem : some (key cell ps) ∈ (t.ofCell c).map t.vertices? :=
      h.ofCell c cell hcell ▸ List.mem_map.2 ⟨ps, hps, rfl⟩
    obtain ⟨i, hi, hkey⟩ := List.mem_map.1 hmem
    -- no two entities have the same vertices
    have hlt : i < t.entities.length := (List.getElem?_eq_some_iff.1 hkey).1
    have heq : i = id := (List.getElem?_inj hlt h.nodup).1 (hkey.trans hid.symm)
    exact heq ▸ hi

theorem lt_of_mem_ofCell (h : Lists positions cells t) {c id : Nat} (hid : id ∈ t.ofCell c) :
    id < t.size := by
  obtain ⟨cell, -, ps, -, hkey⟩ := h.exists_key hid
  exact (List.getElem?_eq_some_iff.1 hkey).1

theorem lt_of_mem_ownersOf (h : Lists positions cells t) {c id : Nat}
    (hc : c ∈ t.ownersOf id) : c < cells.length := by
  obtain ⟨cell, hcell, -⟩ := h.exists_key (h.mem_ownersOf_iff.1 hc)
  exact (List.getElem?_eq_some_iff.1 hcell).1

theorem exists_cell (h : Lists positions cells t) {id : Nat} {vs : List Nat}
    (hvs : t.vertices? id = some vs) :
    ∃ c cell, cells[c]? = some cell ∧ id ∈ t.ofCell c ∧ ∃ ps ∈ positions, vs = key cell ps := by
  obtain ⟨c, hc⟩ := h.used id (List.getElem?_eq_some_iff.1 hvs).1
  obtain ⟨cell, hcell, ps, hps, hkey⟩ := h.exists_key hc
  exact ⟨c, cell, hcell, hc, ps, hps, Option.some.inj (hvs.symm.trans hkey)⟩

end Lists

theorem mem_of_mem_key {cell ps : List Nat} {v : Nat} (h : v ∈ key cell ps) : v ∈ cell := by
  rw [key, (perm_ascending _).mem_iff, List.mem_filterMap] at h
  obtain ⟨p, -, hp⟩ := h
  exact List.mem_of_getElem? hp

theorem key_ne_nil {cell ps : List Nat} (hps : ps ≠ []) (hlt : ∀ p ∈ ps, p < cell.length) :
    key cell ps ≠ [] := by
  obtain ⟨p, hp⟩ := List.exists_mem_of_ne_nil ps hps
  have hlt := hlt p hp
  have hmem : cell[p] ∈ key cell ps := by
    rw [key, (perm_ascending _).mem_iff, List.mem_filterMap]
    exact ⟨p, hp, List.getElem?_eq_getElem hlt⟩
  exact List.ne_nil_of_mem hmem

end EntityTable

end Subdomain

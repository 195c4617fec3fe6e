import Subdomain.Proofs.Topology.Connectivity

/-!
# Looking up cells

The connectivity of a group shows its cells in two ways: `cells` cuts it into pieces, and
`cell?` computes the places of one cell in words. Both show the same as long as the
places fit in a word. Larger places wrap around, and the look-up then finds vertices for
indices that no cell has (`lookUp_agrees`, `lookUp_wraps`).
-/

namespace Subdomain

namespace Element

theorem vertexCount_le (e : Element) : e.vertexCount ≤ 8 := by cases e <;> decide

/-- An index whose place wraps around to the front of the words: to their first place if the vertex
count divides the number of words, and to the second for triangles. -/
def wrapping : Element → UInt64
  | line => 0x8000000000000000
  | triangle => 12297829382473034411
  | quadrilateral | tetrahedron => 0x4000000000000000
  | hexahedron => 0x2000000000000000

end Element

namespace ElementGroup

variable {g : ElementGroup} {i : UInt64}

/-- The vertices of a cell, counted in a word. -/
def stride (g : ElementGroup) : UInt64 := g.element.vertexCount.toUInt64

/-- The places of cell `i` are computed without overflow. -/
structure Exact (g : ElementGroup) (i : UInt64) : Prop where
  start : (i * g.stride).toNat = i.toNat * g.element.vertexCount
  next : (i + 1).toNat = i.toNat + 1
  stop : ((i + 1) * g.stride).toNat = (i.toNat + 1) * g.element.vertexCount

/-- What one expects of the look-up of cell `i`: its places are computed without overflow, and it
finds the piece `i` of the connectivity, or nothing if there are not as many cells. -/
structure LooksUp (g : ElementGroup) (i : UInt64) : Prop where
  exact : g.Exact i
  isSome_iff : (g.cell? i).isSome = true ↔ i.toNat < g.cellCount
  eq_cells : i.toNat < g.cellCount → g.cell? i = g.cells[i.toNat]?

/-- The place at which the look-up of cell `i` starts. -/
def place (g : ElementGroup) (i : UInt64) : Nat :=
  i.toNat * g.element.vertexCount % UInt64.size

/-- The cell that would stand at a place of the connectivity. -/
def slice (g : ElementGroup) (start : Nat) : List Nat :=
  (g.conn.drop start).take g.element.vertexCount

/-! ## Places -/

theorem toNat_stride : g.stride.toNat = g.element.vertexCount :=
  Nat.mod_eq_of_lt (Nat.lt_of_le_of_lt g.element.vertexCount_le (by decide))

theorem toNat_start : (i * g.stride).toNat = g.place i := by
  rw [UInt64.toNat_mul, toNat_stride]
  rfl

theorem toNat_next : (i + 1).toNat = (i.toNat + 1) % UInt64.size := UInt64.toNat_add i 1

/-- That the next index wraps around does not show in its product. -/
theorem toNat_stop :
    ((i + 1) * g.stride).toNat = (i.toNat + 1) * g.element.vertexCount % UInt64.size := by
  rw [UInt64.toNat_mul, toNat_next, toNat_stride]
  exact Nat.mod_mul_mod ..

theorem toNat_stop_eq_place :
    ((i + 1) * g.stride).toNat = (g.place i + g.element.vertexCount) % UInt64.size := by
  rw [toNat_stop, Nat.add_one_mul, place, Nat.mod_add_mod]

theorem exact_iff : g.Exact i ↔ (i.toNat + 1) * g.element.vertexCount < UInt64.size := by
  have hpos := g.element.vertexCount_pos
  constructor
  · intro h
    rw [← h.stop]
    exact UInt64.toNat_lt_size _
  · intro h
    have hnext : i.toNat + 1 ≤ (i.toNat + 1) * g.element.vertexCount :=
      Nat.le_mul_of_pos_right _ hpos
    have hstart : i.toNat * g.element.vertexCount ≤ (i.toNat + 1) * g.element.vertexCount :=
      Nat.mul_le_mul_right _ (Nat.le_succ _)
    refine ⟨?_, ?_, ?_⟩
    · rw [toNat_start]
      exact Nat.mod_eq_of_lt (Nat.lt_of_le_of_lt hstart h)
    · rw [toNat_next]
      exact Nat.mod_eq_of_lt (Nat.lt_of_le_of_lt hnext h)
    · rw [toNat_stop]
      exact Nat.mod_eq_of_lt h

/-! ## What is found -/

/-- A cell is found at a place just if it fits in front of the end of the words and of the
connectivity. -/
theorem cell?_eq : g.cell? i =
    if g.place i + g.element.vertexCount < UInt64.size ∧
        g.place i + g.element.vertexCount ≤ g.conn.length then
      some (g.slice (g.place i))
    else none := by
  have hcell : g.cell? i = if g.place i ≤ ((i + 1) * g.stride).toNat ∧
        ((i + 1) * g.stride).toNat ≤ g.conn.length then
      some ((g.conn.drop (g.place i)).take (((i + 1) * g.stride).toNat - g.place i))
    else none := by
    rw [← toNat_start]
    rfl
  have hplace : g.place i < UInt64.size := Nat.mod_lt _ (by decide)
  have hle := g.element.vertexCount_le
  have hsmall : 8 < UInt64.size := by decide
  rw [hcell, toNat_stop_eq_place]
  by_cases hfits : g.place i + g.element.vertexCount < UInt64.size
  · rw [Nat.mod_eq_of_lt hfits, Nat.add_sub_cancel_left]
    simp [hfits, slice]
  · -- the end of the cell wraps around and lies in front of its start
    have hwrap : (g.place i + g.element.vertexCount) % UInt64.size < g.place i := by
      rw [Nat.mod_eq_sub_mod (Nat.le_of_not_lt hfits), Nat.mod_eq_of_lt (by omega)]
      omega
    rw [if_neg fun h => Nat.not_le_of_lt hwrap h.1, if_neg fun h => hfits h.1]

theorem getElem?_cells {j : Nat} : g.cells[j]? =
    if (j + 1) * g.element.vertexCount ≤ g.conn.length then
      some (g.slice (j * g.element.vertexCount))
    else none := by
  have hlt : j < g.cellCount ↔ (j + 1) * g.element.vertexCount ≤ g.conn.length := by
    rw [Nat.add_one_mul]
    exact lt_div_iff_fits g.element.vertexCount_pos
  rw [cells, getElem?_pieces]
  simp only [hlt, slice]

theorem Exact.cell?_eq_cells (h : g.Exact i) : g.cell? i = g.cells[i.toNat]? := by
  have hplace : g.place i = i.toNat * g.element.vertexCount := toNat_start ▸ h.start
  have hlt := exact_iff.1 h
  rw [Nat.add_one_mul] at hlt
  rw [cell?_eq, getElem?_cells, hplace, Nat.add_one_mul]
  simp only [hlt, true_and]

theorem looksUp_iff :
    g.LooksUp i ↔ (i.toNat + 1) * g.element.vertexCount < UInt64.size := by
  rw [← exact_iff]
  refine ⟨LooksUp.exact, fun h => ⟨h, ?_, fun _ => h.cell?_eq_cells⟩⟩
  rw [h.cell?_eq_cells]
  simp [cells, length_pieces]

/-! ## Indices that no cell has -/

theorem place_wrapping :
    g.place g.element.wrapping = if g.element = .triangle then 1 else 0 := by
  unfold place
  cases g.element <;> decide

/-- The cell in front of that index reaches over the end of the words. -/
theorem size_le_place_pred :
    UInt64.size ≤ g.place (g.element.wrapping - 1) + g.element.vertexCount := by
  unfold place
  cases g.element <;> decide

theorem toNat_wrapping_pred :
    (g.element.wrapping - 1).toNat + 1 = g.element.wrapping.toNat := by
  cases g.element <;> decide

/-- In a group with enough vertices the look-up and the cells do not agree on every index. -/
theorem exists_cell?_ne (h : g.place g.element.wrapping + g.element.vertexCount ≤ g.conn.length) :
    ∃ i : UInt64, g.cell? i ≠ g.cells[i.toNat]? := by
  have hplace : g.place g.element.wrapping + g.element.vertexCount < UInt64.size := by
    rw [place_wrapping]
    cases g.element <;> decide
  have hfound : g.cell? g.element.wrapping = some (g.slice (g.place g.element.wrapping)) := by
    rw [cell?_eq, if_pos ⟨hplace, h⟩]
  by_cases hmany : (g.element.wrapping.toNat + 1) * g.element.vertexCount ≤ g.conn.length
  · -- the connectivity is longer than words can tell, and the cell in front is missed
    refine ⟨g.element.wrapping - 1, ?_⟩
    rw [cell?_eq, if_neg fun hlt => Nat.not_le_of_lt hlt.1 size_le_place_pred, getElem?_cells,
      toNat_wrapping_pred, if_pos]
    · exact nofun
    · exact Nat.le_trans (Nat.mul_le_mul_right _ (Nat.le_succ _)) hmany
  · refine ⟨g.element.wrapping, ?_⟩
    rw [hfound, getElem?_cells, if_neg hmany]
    exact nofun

/-- No triangle but the first starts at the first place: three has an inverse among the words. -/
theorem eq_zero_of_place_eq_zero (hg : g.element = .triangle) (h : g.place i = 0) :
    i.toNat = 0 := by
  rw [place, hg] at h
  have hdvd : UInt64.size ∣ i.toNat :=
    Nat.Coprime.dvd_of_dvd_mul_right (by decide) (Nat.dvd_of_mod_eq_zero h)
  exact Nat.eq_zero_of_dvd_of_lt hdvd i.toNat_lt_size

theorem cell?_eq_cells_iff : (∀ i : UInt64, g.cell? i = g.cells[i.toNat]?) ↔
    g.conn.length < g.element.vertexCount ∨ g.element = .triangle ∧ g.conn.length = 3 := by
  constructor
  · intro hall
    refine Classical.byContradiction fun hlong => ?_
    obtain ⟨hlong, htriangle⟩ := not_or.1 hlong
    have hplace : g.place g.element.wrapping + g.element.vertexCount ≤ g.conn.length := by
      rw [place_wrapping]
      split
      · rename_i hg
        have hne : g.conn.length ≠ 3 := fun hlen => htriangle ⟨hg, hlen⟩
        have hcount : g.element.vertexCount = 3 := by rw [hg]; rfl
        omega
      · omega
    obtain ⟨i, hi⟩ := exists_cell?_ne hplace
    exact hi (hall i)
  · rintro (hshort | ⟨hg, hlen⟩) i
    · have hle : g.element.vertexCount ≤ (i.toNat + 1) * g.element.vertexCount :=
        Nat.le_mul_of_pos_left _ (Nat.succ_pos _)
      rw [cell?_eq, if_neg fun h => by omega, getElem?_cells, if_neg fun h => by omega]
    · by_cases hplace : g.place i = 0
      · refine (exact_iff.2 ?_).cell?_eq_cells
        rw [eq_zero_of_place_eq_zero hg hplace, hg]
        decide
      · have hcount : g.element.vertexCount = 3 := by rw [hg]; rfl
        have hpos : i.toNat ≠ 0 := fun hi => hplace (by rw [place, hi, Nat.zero_mul]; rfl)
        rw [cell?_eq, getElem?_cells, hcount, if_neg fun h => by omega, if_neg fun h => by omega]

/-- The look-up of a cell goes as expected just if the place behind the cell is below the number of
words, and so for every cell of a connectivity that is no longer. At larger indices it takes the
place without its overflow. So it agrees with the cells on all indices only in a group without
cells and in one that is a single triangle. -/
theorem lookUp_agrees (g : ElementGroup) :
    (∀ i, g.LooksUp i ↔ (i.toNat + 1) * g.element.vertexCount < UInt64.size) ∧
    (∀ i, g.conn.length < UInt64.size → i.toNat < g.cellCount → g.LooksUp i) ∧
    (∀ i, g.cell? i =
      if g.place i + g.element.vertexCount < UInt64.size ∧
          g.place i + g.element.vertexCount ≤ g.conn.length then
        some (g.slice (g.place i))
      else none) ∧
    ((∀ i : UInt64, g.cell? i = g.cells[i.toNat]?) ↔
      g.conn.length < g.element.vertexCount ∨ g.element = .triangle ∧ g.conn.length = 3) := by
  refine ⟨fun i => looksUp_iff, fun i hlen hi => ?_, fun i => cell?_eq, cell?_eq_cells_iff⟩
  have hfits := (lt_div_iff_fits g.element.vertexCount_pos).1 hi
  rw [← Nat.add_one_mul] at hfits
  exact looksUp_iff.2 (Nat.lt_of_le_of_lt hfits hlen)

/-- A square with one cell has a cell at index 2⁶² as well, and two triangles have a third, with
vertices of both, at an index beyond 2⁶². -/
theorem lookUp_wraps :
    let square : ElementGroup := ⟨1, .quadrilateral, [0, 1, 3, 2]⟩
    let triangles : ElementGroup := ⟨1, .triangle, [0, 1, 3, 0, 3, 2]⟩
    (square.cellCount = 1 ∧ square.cell? 4611686018427387904 = some [0, 1, 3, 2] ∧
      ¬ square.LooksUp 4611686018427387904) ∧
    triangles.cells = [[0, 1, 3], [0, 3, 2]] ∧
      triangles.cell? 6148914691236517206 = some [3, 0, 3] ∧
        ¬ triangles.LooksUp 6148914691236517206 := by
  intro square triangles
  exact ⟨⟨by decide, by decide, fun h => absurd (looksUp_iff.1 h) (by decide)⟩, by decide, by decide,
    fun h => absurd (looksUp_iff.1 h) (by decide)⟩

end ElementGroup

end Subdomain

import Mathlib.Data.List.Nodup
import Mathlib.Logic.ExistsUnique
import Mathlib.Order.Defs.PartialOrder
import Subdomain.Proofs.Mesh.Built

/-!
# Lattices

The vertices of a structured mesh are the sites of a lattice, numbered along `x`, then `y`, then
`z`. Its cells, faces and edges are boxes, all of one span for each direction that they lie in. A
box is told by its vertices (`box_inj`), and the number of boxes of a span is a product
(`length_places`). A box that can be a part of two cells in some direction is a part of only one
just at the ends of the lattice in that direction (`existsUnique_cell`).
-/

namespace Subdomain

/-- A place in space in whole steps from the origin, and also a number of steps along each axis. -/
structure Site where
  x : Nat
  y : Nat
  z : Nat
  deriving DecidableEq

namespace Site

instance : Zero Site := ⟨⟨0, 0, 0⟩⟩

instance : Add Site := ⟨fun p q => ⟨p.x + q.x, p.y + q.y, p.z + q.z⟩⟩

instance : LE Site := ⟨fun p q => p.x ≤ q.x ∧ p.y ≤ q.y ∧ p.z ≤ q.z⟩

variable {p q c d g s t : Site} {xs ys zs : List Nat}

theorem le_iff : p ≤ q ↔ p.x ≤ q.x ∧ p.y ≤ q.y ∧ p.z ≤ q.z := Iff.rfl

theorem eq_iff : p = q ↔ p.x = q.x ∧ p.y = q.y ∧ p.z = q.z := by
  cases p
  cases q
  rw [mk.injEq]

theorem exists_iff {P : Site → Prop} : (∃ p, P p) ↔ ∃ x y z, P ⟨x, y, z⟩ := by
  constructor
  · rintro ⟨p, h⟩
    exact ⟨p.x, p.y, p.z, h⟩
  · rintro ⟨x, y, z, h⟩
    exact ⟨⟨x, y, z⟩, h⟩

@[simp] theorem add_x : (p + q).x = p.x + q.x := rfl

@[simp] theorem add_y : (p + q).y = p.y + q.y := rfl

@[simp] theorem add_z : (p + q).z = p.z + q.z := rfl

@[simp] theorem zero_x : (0 : Site).x = 0 := rfl

@[simp] theorem zero_y : (0 : Site).y = 0 := rfl

@[simp] theorem zero_z : (0 : Site).z = 0 := rfl

instance : PartialOrder Site where
  le_refl p := ⟨Nat.le_refl p.x, Nat.le_refl p.y, Nat.le_refl p.z⟩
  le_trans _ _ _ h h' :=
    ⟨Nat.le_trans h.1 h'.1, Nat.le_trans h.2.1 h'.2.1, Nat.le_trans h.2.2 h'.2.2⟩
  le_antisymm _ _ h h' :=
    eq_iff.2 ⟨Nat.le_antisymm h.1 h'.1, Nat.le_antisymm h.2.1 h'.2.1, Nat.le_antisymm h.2.2 h'.2.2⟩

instance : DecidableRel fun p q : Site => p ≤ q := fun _ _ => inferInstanceAs (Decidable (_ ∧ _))

protected theorem add_assoc (p q c : Site) : p + q + c = p + (q + c) := by
  simp only [eq_iff, add_x, add_y, add_z]
  omega

protected theorem le_add_right (p q : Site) : p ≤ p + q :=
  ⟨Nat.le_add_right p.x q.x, Nat.le_add_right p.y q.y, Nat.le_add_right p.z q.z⟩

protected theorem add_le_add_iff_left (p : Site) {c d : Site} : p + c ≤ p + d ↔ c ≤ d := by
  simp only [le_iff, add_x, add_y, add_z]
  omega

protected theorem add_left_cancel (p : Site) {c d : Site} (h : p + c = p + d) : c = d :=
  le_antisymm (p.add_le_add_iff_left.1 (le_of_eq h)) (p.add_le_add_iff_left.1 (ge_of_eq h))

theorem exists_add_of_le (h : p ≤ q) : ∃ d, q = p + d := by
  refine ⟨⟨q.x - p.x, q.y - p.y, q.z - p.z⟩, ?_⟩
  rw [le_iff] at h
  simp only [eq_iff, add_x, add_y, add_z]
  omega

/-! ## Sites in order -/

/-- The sites with coordinates from three lists, along `x`, then `y`, then `z`. -/
def sites (xs ys zs : List Nat) : List Site :=
  zs.flatMap fun z => ys.flatMap fun y => xs.map fun x => ⟨x, y, z⟩

theorem mem_sites : p ∈ sites xs ys zs ↔ p.x ∈ xs ∧ p.y ∈ ys ∧ p.z ∈ zs := by
  simp only [sites, List.mem_flatMap, List.mem_map]
  constructor
  · rintro ⟨z, hz, y, hy, x, hx, rfl⟩
    exact ⟨hx, hy, hz⟩
  · rintro ⟨hx, hy, hz⟩
    exact ⟨p.z, hz, p.y, hy, p.x, hx, rfl⟩

theorem exists_mem_sites {P : Site → Prop} :
    (∃ p ∈ sites xs ys zs, P p) ↔ ∃ x ∈ xs, ∃ y ∈ ys, ∃ z ∈ zs, P ⟨x, y, z⟩ := by
  constructor
  · rintro ⟨p, hp, h⟩
    obtain ⟨hx, hy, hz⟩ := mem_sites.1 hp
    exact ⟨p.x, hx, p.y, hy, p.z, hz, h⟩
  · rintro ⟨x, hx, y, hy, z, hz, h⟩
    exact ⟨⟨x, y, z⟩, mem_sites.2 ⟨hx, hy, hz⟩, h⟩

theorem map_sites {α : Type} (f : Site → α) : (sites xs ys zs).map f =
    zs.flatMap fun z => ys.flatMap fun y => xs.map fun x => f ⟨x, y, z⟩ := by
  simp only [sites, List.map_flatMap, List.map_map, Function.comp_def]

theorem length_sites : (sites xs ys zs).length = xs.length * ys.length * zs.length := by
  simp only [sites, List.length_flatMap, List.length_map, List.map_const', List.sum_replicate_nat]
  rw [Nat.mul_comm ys.length, Nat.mul_comm zs.length]

/-- The order of the numbering. -/
def Before (p q : Site) : Prop :=
  p.z < q.z ∨ p.z = q.z ∧ (p.y < q.y ∨ p.y = q.y ∧ p.x < q.x)

theorem before_or_before (h : p ≠ q) : p.Before q ∨ q.Before p := by
  rw [Ne, eq_iff] at h
  unfold Before
  omega

theorem ne_of_before (h : p.Before q) : p ≠ q := by
  rw [Ne, eq_iff]
  unfold Before at h
  omega

theorem pairwise_sites (hx : xs.Pairwise (· < ·)) (hy : ys.Pairwise (· < ·))
    (hz : zs.Pairwise (· < ·)) : (sites xs ys zs).Pairwise Before := by
  have hrow (y z : Nat) : (xs.map fun x => Site.mk x y z).Pairwise Before :=
    List.pairwise_map.2 (hx.imp fun h => .inr ⟨rfl, .inr ⟨rfl, h⟩⟩)
  have hlayer (z : Nat) : (ys.flatMap fun y => xs.map fun x => Site.mk x y z).Pairwise Before := by
    refine List.pairwise_flatMap.2 ⟨fun y _ => hrow y z, hy.imp fun h p hp q hq => ?_⟩
    obtain ⟨x, -, rfl⟩ := List.mem_map.1 hp
    obtain ⟨x', -, rfl⟩ := List.mem_map.1 hq
    exact .inr ⟨rfl, .inl h⟩
  refine List.pairwise_flatMap.2 ⟨fun z _ => hlayer z, hz.imp fun h p hp q hq => ?_⟩
  obtain ⟨y, -, hp⟩ := List.mem_flatMap.1 hp
  obtain ⟨y', -, hq⟩ := List.mem_flatMap.1 hq
  obtain ⟨x, -, rfl⟩ := List.mem_map.1 hp
  obtain ⟨x', -, rfl⟩ := List.mem_map.1 hq
  exact .inl h

theorem nodup_sites (hx : xs.Pairwise (· < ·)) (hy : ys.Pairwise (· < ·))
    (hz : zs.Pairwise (· < ·)) : (sites xs ys zs).Nodup :=
  (pairwise_sites hx hy hz).imp ne_of_before

/-- The first sites of the boxes of span `s` in the lattice up to `g`. -/
def places (g s : Site) : List Site :=
  sites (List.range (g.x + 1 - s.x)) (List.range (g.y + 1 - s.y)) (List.range (g.z + 1 - s.z))

theorem mem_places : q ∈ g.places s ↔ q + s ≤ g := by
  rw [places, mem_sites, List.mem_range, List.mem_range, List.mem_range, le_iff, add_x, add_y,
    add_z]
  omega

theorem nodup_places (g s : Site) : (g.places s).Nodup :=
  nodup_sites List.pairwise_lt_range List.pairwise_lt_range List.pairwise_lt_range

theorem length_places (g s : Site) :
    (g.places s).length = (g.x + 1 - s.x) * (g.y + 1 - s.y) * (g.z + 1 - s.z) := by
  rw [places, length_sites, List.length_range, List.length_range, List.length_range]

/-! ## Numbers -/

/-- The number of a site of the lattice up to `g`. -/
def number (g q : Site) : Nat := q.z * ((g.y + 1) * (g.x + 1)) + q.y * (g.x + 1) + q.x

theorem number_lt_number (hp : p ≤ g) (h : p.Before q) : g.number p < g.number q := by
  obtain ⟨hpx, hpy, -⟩ := hp
  have hcorner : p.y * (g.x + 1) + p.x < (g.y + 1) * (g.x + 1) := Mesh.corner_lt hpx hpy
  unfold number
  rcases h with hz | ⟨hz, hy | ⟨hy, hx⟩⟩
  · have := Nat.mul_le_mul_right ((g.y + 1) * (g.x + 1)) hz
    rw [Nat.succ_mul] at this
    omega
  · have := Nat.mul_le_mul_right (g.x + 1) hy
    rw [Nat.succ_mul] at this
    rw [hz]
    omega
  · rw [hz, hy]
    omega

theorem number_inj (hp : p ≤ g) (hq : q ≤ g) (h : g.number p = g.number q) : p = q := by
  by_contra hne
  rcases before_or_before hne with hlt | hlt
  · exact Nat.ne_of_lt (number_lt_number hp hlt) h
  · exact Nat.ne_of_gt (number_lt_number hq hlt) h

theorem range_rows (rows n : Nat) :
    ((List.range rows).flatMap fun j => (List.range n).map fun i => j * n + i) =
      List.range (rows * n) := by
  induction rows with
  | zero => rw [Nat.zero_mul, List.range_zero, List.flatMap_nil]
  | succ rows ih =>
    rw [List.range_succ, List.flatMap_append, ih, List.flatMap_singleton, Nat.succ_mul,
      List.range_add]

/-- The sites of the lattice are numbered in their order. -/
theorem map_number_places (g : Site) :
    (g.places 0).map g.number = List.range ((g.z + 1) * ((g.y + 1) * (g.x + 1))) := by
  have hlayer (z : Nat) :
      ((List.range (g.y + 1)).flatMap fun y => (List.range (g.x + 1)).map fun x =>
          z * ((g.y + 1) * (g.x + 1)) + y * (g.x + 1) + x) =
        (List.range ((g.y + 1) * (g.x + 1))).map (z * ((g.y + 1) * (g.x + 1)) + ·) := by
    rw [← range_rows, List.map_flatMap]
    simp only [List.map_map, Function.comp_def, Nat.add_assoc]
  rw [← range_rows, places, map_sites]
  simp only [zero_x, zero_y, zero_z, Nat.sub_zero, number, hlayer]

theorem getElem?_number (hq : q ≤ g) : (g.places 0)[g.number q]? = some q := by
  have hmem : q ∈ g.places 0 := mem_places.2 hq
  obtain ⟨i, hi⟩ := List.mem_iff_getElem?.1 hmem
  have hnumber : (List.range ((g.z + 1) * ((g.y + 1) * (g.x + 1))))[i]? = some (g.number q) := by
    rw [← map_number_places, List.getElem?_map, hi]
    rfl
  obtain ⟨hlt, heq⟩ := List.getElem?_eq_some_iff.1 hnumber
  rw [← heq, List.getElem_range, hi]

/-! ## Boxes -/

/-- The numbers of the vertices of a box, ascending. -/
def box (g q s : Site) : List Nat := (s.places 0).map fun d => g.number (q + d)

theorem mem_box {v : Nat} : v ∈ g.box q s ↔ ∃ p, q ≤ p ∧ p ≤ q + s ∧ v = g.number p := by
  simp only [box, List.mem_map, mem_places]
  constructor
  · rintro ⟨d, hd, rfl⟩
    exact ⟨q + d, q.le_add_right d, q.add_le_add_iff_left.2 hd, rfl⟩
  · rintro ⟨p, hqp, hps, rfl⟩
    obtain ⟨d, rfl⟩ := exists_add_of_le hqp
    exact ⟨d, q.add_le_add_iff_left.1 hps, rfl⟩

theorem number_mem_box (hp : p ≤ g) (hs : q + s ≤ g) :
    g.number p ∈ g.box q s ↔ q ≤ p ∧ p ≤ q + s := by
  rw [mem_box]
  constructor
  · rintro ⟨p', hqp, hps, heq⟩
    exact number_inj hp (le_trans hps hs) heq ▸ ⟨hqp, hps⟩
  · rintro ⟨hqp, hps⟩
    exact ⟨p, hqp, hps, rfl⟩

theorem pairwise_box (h : q + s ≤ g) : (g.box q s).Pairwise (· < ·) := by
  have hsites : (s.places 0).Pairwise Before :=
    pairwise_sites List.pairwise_lt_range List.pairwise_lt_range List.pairwise_lt_range
  refine List.pairwise_map.2 (hsites.imp_of_mem fun hd _ hlt => number_lt_number ?_ ?_)
  · exact le_trans (q.add_le_add_iff_left.2 (mem_places.1 hd)) h
  · simp only [Before, add_x, add_y, add_z] at *
    omega

/-- The first site of a box is one of the other box with the same vertices, and so is the last. -/
theorem box_inj {q' s' : Site} (h : q + s ≤ g) (h' : q' + s' ≤ g)
    (heq : g.box q s = g.box q' s') : q = q' ∧ s = s' := by
  have hmem {p : Site} (hp : p ≤ g) : q ≤ p ∧ p ≤ q + s ↔ q' ≤ p ∧ p ≤ q' + s' := by
    rw [← number_mem_box hp h, ← number_mem_box hp h', heq]
  have hq := q.le_add_right s
  have hq' := q'.le_add_right s'
  have hfirst : q = q' := le_antisymm ((hmem (le_trans hq' h')).2 ⟨le_rfl, hq'⟩).1
    ((hmem (le_trans hq h)).1 ⟨le_rfl, hq⟩).1
  have hlast : q + s = q' + s' :=
    le_antisymm ((hmem h).1 ⟨hq, le_rfl⟩).2 ((hmem h').2 ⟨hq', le_rfl⟩).2
  subst hfirst
  exact ⟨rfl, q.add_left_cancel hlast⟩

/-- The boxes of some spans, from the first sites of those of each span. -/
def boxes (g : Site) (spans : List Site) (firsts : Site → List Site) : List (List Nat) :=
  spans.flatMap fun s => (firsts s).map (g.box · s)

section Boxes

variable {spans : List Site} {firsts : Site → List Site}

theorem mem_boxes {vs : List Nat} :
    vs ∈ g.boxes spans firsts ↔ ∃ s ∈ spans, ∃ q ∈ firsts s, vs = g.box q s := by
  simp only [boxes, List.mem_flatMap, List.mem_map, eq_comm]

theorem length_boxes :
    (g.boxes spans firsts).length = total (spans.map fun s => (firsts s).length) := by
  induction spans with
  | nil => rfl
  | cons s spans ih =>
    rw [boxes, List.flatMap_cons, List.length_append, List.length_map, ← boxes, ih]
    rfl

theorem nodup_boxes (hspans : spans.Nodup) (hfirsts : ∀ s, (firsts s).Nodup)
    (hfits : ∀ s, ∀ q ∈ firsts s, q + s ≤ g) : (g.boxes spans firsts).Nodup := by
  refine List.nodup_flatMap.2 ⟨fun s _ => ?_, hspans.imp fun hne vs hvs hvs' => hne ?_⟩
  · exact (hfirsts s).map_on fun q hq q' hq' heq => (box_inj (hfits s q hq) (hfits s q' hq') heq).1
  · obtain ⟨q, hq, rfl⟩ := List.mem_map.1 hvs
    obtain ⟨q', hq', heq⟩ := List.mem_map.1 hvs'
    exact (box_inj (hfits _ q' hq') (hfits _ q hq) heq).2.symm

end Boxes

/-! ## Cells around a box -/

theorem existsUnique_iff {P Q R : Nat → Prop} :
    (∃! p : Site, P p.x ∧ Q p.y ∧ R p.z) ↔ (∃! x, P x) ∧ (∃! y, Q y) ∧ ∃! z, R z := by
  constructor
  · rintro ⟨p, ⟨hx, hy, hz⟩, huniq⟩
    exact ⟨⟨p.x, hx, fun x h => congrArg Site.x (huniq ⟨x, p.y, p.z⟩ ⟨h, hy, hz⟩)⟩,
      ⟨p.y, hy, fun y h => congrArg Site.y (huniq ⟨p.x, y, p.z⟩ ⟨hx, h, hz⟩)⟩,
      ⟨p.z, hz, fun z h => congrArg Site.z (huniq ⟨p.x, p.y, z⟩ ⟨hx, hy, h⟩)⟩⟩
  · rintro ⟨⟨x, hx, hux⟩, ⟨y, hy, huy⟩, z, hz, huz⟩
    refine ⟨⟨x, y, z⟩, ⟨hx, hy, hz⟩, fun p hp => ?_⟩
    exact eq_iff.2 ⟨hux _ hp.1, huy _ hp.2.1, huz _ hp.2.2⟩

/-- Where along an axis that ends at `g` a box of length `s` can begin and lie in one cell of length
`t` only. -/
def ends (g t s : Nat) : List Nat := if s < t then [0, g] else List.range (g + 1 - s)

section Axis

variable {g t s q p : Nat}

theorem mem_ends (ht : t ≤ 1) (hg : t ≤ g) :
    q ∈ ends g t s ↔ q + s ≤ g ∧ (s < t → q = 0 ∨ q = g) := by
  unfold ends
  split
  · rw [List.mem_cons, List.mem_singleton]
    omega
  · rw [List.mem_range]
    omega

theorem pairwise_ends (hg : t ≤ g) : (ends g t s).Pairwise (· < ·) := by
  unfold ends
  split
  · exact List.pairwise_pair.2 (by omega)
  · exact List.pairwise_lt_range

theorem exists_begin (hs : s ≤ t) (hg : t ≤ g) :
    (∃ c, c + t ≤ g ∧ c ≤ q ∧ q + s ≤ c + t) ↔ q + s ≤ g := by
  constructor
  · rintro ⟨c, hc, -, hq⟩
    omega
  · intro hq
    exact ⟨min q (g - t), by omega, by omega, by omega⟩

theorem existsUnique_begin (hs : s ≤ t) (ht : t ≤ 1) (hg : t ≤ g) :
    (∃! c, c + t ≤ g ∧ c ≤ q ∧ q + s ≤ c + t) ↔ q ∈ ends g t s := by
  rw [mem_ends ht hg]
  constructor
  · rintro ⟨c, hc, huniq⟩
    refine ⟨by omega, fun hlt => ?_⟩
    by_contra hne
    -- away from the ends there is a cell on each side
    have hlow := huniq (q - 1) (by omega)
    have hhigh := huniq q (by omega)
    omega
  · rintro ⟨hq, hend⟩
    exact ⟨min q (g - t), by omega, fun c hc => by omega⟩

theorem exists_end (hs : s ≤ t) (ht : t ≤ 1) (hg : t ≤ g) :
    (∃ q ∈ ends g t s, q ≤ p ∧ p ≤ q + s) ↔ p ≤ g ∧ (s < t → p = 0 ∨ p = g) := by
  constructor
  · rintro ⟨q, hq, hqp, hps⟩
    rw [mem_ends ht hg] at hq
    omega
  · rintro ⟨hp, hend⟩
    refine ⟨min p (g - s), (mem_ends ht hg).2 ?_, ?_⟩ <;> omega

end Axis

/-- The first sites of the boxes of span `s` that are parts of one cell of span `t` only. -/
def rim (g t s : Site) : List Site := sites (ends g.x t.x s.x) (ends g.y t.y s.y) (ends g.z t.z s.z)

/-- Along every axis in which a box of span `s` can move within a cell of span `t`, the site is at
an end of the lattice. -/
def AtEnds (g t s p : Site) : Prop :=
  (s.x < t.x → p.x = 0 ∨ p.x = g.x) ∧ (s.y < t.y → p.y = 0 ∨ p.y = g.y) ∧
    (s.z < t.z → p.z = 0 ∨ p.z = g.z)

/-- Cells are at most one step long, and the lattice has room for one. -/
structure Paves (t g : Site) : Prop where
  unit : t ≤ ⟨1, 1, 1⟩
  room : t ≤ g

namespace Paves

variable (h : Paves t g)
include h

theorem nodup_rim : (g.rim t s).Nodup :=
  nodup_sites (pairwise_ends h.room.1) (pairwise_ends h.room.2.1) (pairwise_ends h.room.2.2)

theorem mem_rim : q ∈ g.rim t s ↔ q + s ≤ g ∧ g.AtEnds t s q := by
  rw [rim, mem_sites, mem_ends h.unit.1 h.room.1, mem_ends h.unit.2.1 h.room.2.1,
    mem_ends h.unit.2.2 h.room.2.2]
  unfold AtEnds
  rw [le_iff, add_x, add_y, add_z]
  tauto

variable (hs : s ≤ t)
include hs

theorem exists_cell : (∃ c, c + t ≤ g ∧ c ≤ q ∧ q + s ≤ c + t) ↔ q + s ≤ g := by
  constructor
  · rintro ⟨c, hc, -, hq⟩
    exact le_trans hq hc
  · intro hq
    obtain ⟨x, hx⟩ := (exists_begin hs.1 h.room.1).2 hq.1
    obtain ⟨y, hy⟩ := (exists_begin hs.2.1 h.room.2.1).2 hq.2.1
    obtain ⟨z, hz⟩ := (exists_begin hs.2.2 h.room.2.2).2 hq.2.2
    exact ⟨⟨x, y, z⟩, ⟨hx.1, hy.1, hz.1⟩, ⟨hx.2.1, hy.2.1, hz.2.1⟩, ⟨hx.2.2, hy.2.2, hz.2.2⟩⟩

theorem existsUnique_cell :
    (∃! c, c + t ≤ g ∧ c ≤ q ∧ q + s ≤ c + t) ↔ q ∈ g.rim t s := by
  rw [rim, mem_sites, ← existsUnique_begin hs.1 h.unit.1 h.room.1,
    ← existsUnique_begin hs.2.1 h.unit.2.1 h.room.2.1,
    ← existsUnique_begin hs.2.2 h.unit.2.2 h.room.2.2, ← existsUnique_iff]
  refine existsUnique_congr fun c => ?_
  simp only [le_iff, add_x, add_y, add_z]
  tauto

/-- The sites of the boxes of one span on the rim are those at the ends of the lattice. -/
theorem exists_rim {p : Site} :
    (∃ q ∈ g.rim t s, q ≤ p ∧ p ≤ q + s) ↔ p ≤ g ∧ g.AtEnds t s p := by
  constructor
  · rintro ⟨q, hq, hqp, hps⟩
    obtain ⟨hxm, hym, hzm⟩ := mem_sites.1 hq
    obtain ⟨hpx, hx⟩ := (exists_end hs.1 h.unit.1 h.room.1).1 ⟨q.x, hxm, hqp.1, hps.1⟩
    obtain ⟨hpy, hy⟩ := (exists_end hs.2.1 h.unit.2.1 h.room.2.1).1 ⟨q.y, hym, hqp.2.1, hps.2.1⟩
    obtain ⟨hpz, hz⟩ := (exists_end hs.2.2 h.unit.2.2 h.room.2.2).1 ⟨q.z, hzm, hqp.2.2, hps.2.2⟩
    exact ⟨⟨hpx, hpy, hpz⟩, hx, hy, hz⟩
  · rintro ⟨hp, hx, hy, hz⟩
    obtain ⟨x, hxm, hx⟩ := (exists_end hs.1 h.unit.1 h.room.1).2 ⟨hp.1, hx⟩
    obtain ⟨y, hym, hy⟩ := (exists_end hs.2.1 h.unit.2.1 h.room.2.1).2 ⟨hp.2.1, hy⟩
    obtain ⟨z, hzm, hz⟩ := (exists_end hs.2.2 h.unit.2.2 h.room.2.2).2 ⟨hp.2.2, hz⟩
    exact ⟨⟨x, y, z⟩, mem_sites.2 ⟨hxm, hym, hzm⟩, ⟨hx.1, hy.1, hz.1⟩, ⟨hx.2, hy.2, hz.2⟩⟩

end Paves

end Site

end Subdomain

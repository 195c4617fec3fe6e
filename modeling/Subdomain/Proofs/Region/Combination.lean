import Subdomain.Proofs.Region.Derivation

/-!
# Combination

Combining two regions works on their sets of one kind and derives the rest from
the result. Next to a mesh that was built, settled regions can be combined with
every operator, save on faces where there are none; their combination is settled
and determined by its set of the target kind (`Combined`). The laws of sets follow
(`Laws`).
-/

namespace Subdomain

namespace SetOp

variable {α : Type} [LinearKey α] [DecidableEq α] {a b c : SortedSet α} {op : SetOp}

/-- What an operation makes of two conditions of membership. -/
def Holds (op : SetOp) (p q : Prop) : Prop :=
  match op with
  | subtract => p ∧ ¬ q
  | add => p ∨ q
  | intersect => p ∧ q

theorem Holds.or {p q : Prop} (h : op.Holds p q) : p ∨ q := by
  cases op with
  | subtract | intersect => exact .inl h.1
  | add => exact h

theorem mem_apply {x : α} : x ∈ op.apply a b ↔ op.Holds (x ∈ a) (x ∈ b) := by
  cases op with
  | subtract => exact SortedSet.mem_sdiff
  | add => exact SortedSet.mem_union
  | intersect => exact SortedSet.mem_inter

theorem subtract_self : subtract.apply a a = ∅ := by
  ext x
  rw [mem_apply]
  exact iff_of_false (fun h => h.2 h.1) (SortedSet.not_mem_empty x)

variable (h : op ≠ subtract)
include h

theorem apply_comm : op.apply a b = op.apply b a := by
  ext x
  rw [mem_apply, mem_apply]
  cases op with
  | subtract => exact absurd rfl h
  | add => exact or_comm
  | intersect => exact and_comm

theorem apply_assoc : op.apply (op.apply a b) c = op.apply a (op.apply b c) := by
  ext x
  simp only [mem_apply]
  cases op with
  | subtract => exact absurd rfl h
  | add => exact or_assoc
  | intersect => exact and_assoc

theorem apply_self : op.apply a a = a := by
  ext x
  rw [mem_apply]
  cases op with
  | subtract => exact absurd rfl h
  | add => exact or_self_iff
  | intersect => exact and_self_iff

end SetOp

/-! ## Extents -/

namespace Extent

variable {o : SetOperator} {k : Kind} {x y z : Extent}

/-- The operation on the sets of the target kind, and nothing else. -/
def merge (o : SetOperator) (x y : Extent) : Extent :=
  match o.target with
  | .vertex => { vertices := o.op.apply x.vertices y.vertices }
  | k => .only k (o.op.apply (x.entities k) (y.entities k))

theorem vertices_merge (h : o.target = .vertex) :
    (merge o x y).vertices = o.op.apply x.vertices y.vertices := by
  rw [merge, h]

theorem entities_merge (h : o.target ≠ .vertex) :
    (merge o x y).entities o.target = o.op.apply (x.entities o.target) (y.entities o.target) := by
  obtain ⟨op, k⟩ := o
  cases k with
  | vertex => exact absurd rfl h
  | edge | face | facet | cell => rfl

theorem merge_part_left : merge o (x.part o.target) y = merge o x y := by
  obtain ⟨op, k⟩ := o
  cases k <;> rfl

theorem merge_part_right : merge o x (y.part o.target) = merge o x y := by
  obtain ⟨op, k⟩ := o
  cases k <;> rfl

theorem merge_subtract_self : merge ⟨.subtract, k⟩ x x = {} := by
  cases k <;> simp only [merge, SetOp.subtract_self] <;> rfl

section

variable (h : o.op ≠ .subtract)
include h

theorem merge_comm : merge o x y = merge o y x := by
  obtain ⟨op, k⟩ := o
  have hv : op.apply x.vertices y.vertices = op.apply y.vertices x.vertices := SetOp.apply_comm h
  have he : op.apply (x.entities k) (y.entities k) = op.apply (y.entities k) (x.entities k) :=
    SetOp.apply_comm h
  cases k with
  | vertex => simp only [merge, hv]
  | edge | face | facet | cell => simp only [merge, he]

theorem merge_assoc : merge o (merge o x y) z = merge o x (merge o y z) := by
  obtain ⟨op, k⟩ := o
  cases k <;> simp only [merge, only, entities, SetOp.apply_assoc h]

theorem merge_self : merge o x x = x.part o.target := by
  obtain ⟨op, k⟩ := o
  cases k <;> simp only [merge, SetOp.apply_self h] <;> rfl

end

end Extent

namespace Topology

variable {t : Topology} {k : Kind} {o : SetOperator} {x y : Extent}

/-- The domain has entities of the kind, in principle: it is not flat if they are faces. -/
def Supports (t : Topology) (k : Kind) : Prop := k = .face → t.hasFaces = true

theorem supports_iff : t.Supports k ↔ ¬ (k = .face ∧ (!t.hasFaces) = true) := by
  rw [Supports, not_and, Bool.not_eq_true', Bool.not_eq_false]

theorem not_supports_iff : ¬ t.Supports k ↔ k = .face ∧ t.hasFaces = false := by
  rw [Supports, Classical.not_imp, Bool.not_eq_true]

theorem derive_part : t.derive k (x.part k) = t.derive k x := by
  cases k <;> rfl

theorem part_derive : (t.derive k x).part k = x.part k := by
  cases k <;> rfl

theorem error?_merge (hx : x.InRange t) (hy : y.InRange t) :
    t.error? o.target (.merge o x y) = none := by
  by_cases hk : o.target = .vertex
  · rw [hk, error?_vertex_eq_none_iff, Extent.vertices_merge hk]
    intro v hv
    rcases (SetOp.mem_apply.1 hv).or with hv | hv
    · exact hx.vertices v hv
    · exact hy.vertices v hv
  · rw [error?_eq_none_iff hk, Extent.entities_merge hk]
    intro e he
    rcases (SetOp.mem_apply.1 he).or with he | he
    · exact hx.entities _ hk e he
    · exact hy.entities _ hk e he

end Topology

namespace Region

variable {t : Topology} {o : SetOperator} {k : Kind} {op : SetOp} {a b c r s : Region}

theorem extent_merge : (merge o a b).extent = .merge o a.extent b.extent := by
  obtain ⟨op, k⟩ := o
  cases k <;> rfl

theorem source_merge : (merge o a b).source = o.target := by
  obtain ⟨op, k⟩ := o
  cases k <;> rfl

/-! ## Combinations of settled regions -/

/-- A settled region is what follows from its set of its own kind. -/
theorem Settled.extent_eq (h : r.Settled t) : r.extent = t.derive r.kind (r.extent.part r.kind) := by
  rw [Topology.derive_part, h.kind, h.derived]

/-- The set of the kind decides all others. -/
theorem Settled.extent_congr (hr : r.Settled t) (hs : s.Settled t) (hk : r.kind = s.kind)
    (h : r.extent.part r.kind = s.extent.part r.kind) : r.extent = s.extent := by
  rw [hr.extent_eq, hs.extent_eq, ← hk, h]

theorem Settled.congr (hr : r.Settled t) (hs : s.Settled t) (h : r.extent = s.extent) :
    r.extent = s.extent ∧ r.groups = s.groups ∧ r.shape = s.shape := by
  refine ⟨h, ?_, ?_⟩
  · rw [← hr.groups, ← hs.groups, h]
  · rw [← hr.shape, ← hs.shape, h]

/-- The region is the combination of the regions `a` and `b`. -/
structure Combined (t : Topology) (o : SetOperator) (a b r : Region) : Prop where
  kind : r.kind = o.target
  settled : r.Settled t
  vertices : o.target = .vertex →
    ∀ v, v ∈ r.vertices ↔ o.op.Holds (v ∈ a.vertices) (v ∈ b.vertices)
  entities : o.target ≠ .vertex → ∀ e,
    e ∈ r.entities o.target ↔ o.op.Holds (e ∈ a.entities o.target) (e ∈ b.entities o.target)
  /-- Every settled region with the same set of the target kind has the same other sets. -/
  determined : ∀ s : Region, s.Settled t → s.kind = o.target →
    s.extent.part o.target = r.extent.part o.target →
      s.extent = r.extent ∧ s.groups = r.groups ∧ s.shape = r.shape

theorem combined_of_extent (hr : r.Settled t) (hk : r.kind = o.target)
    (he : r.extent = t.derive o.target (.merge o a.extent b.extent)) : Combined t o a b r where
  kind := hk
  settled := hr
  vertices ht v := by
    have hv : r.vertices = (Extent.merge o a.extent b.extent).vertices := by
      show r.extent.vertices = _
      rw [he, ht]
      rfl
    rw [hv, Extent.vertices_merge ht, SetOp.mem_apply]
    rfl
  entities ht e := by
    have hs : r.entities o.target = (Extent.merge o a.extent b.extent).entities o.target := by
      show r.extent.entities o.target = _
      rw [he, Topology.entities_derive_self, if_neg ht]
    rw [hs, Extent.entities_merge ht, SetOp.mem_apply]
    rfl
  determined s hs hks hpart := by
    exact hs.congr hr (hs.extent_congr hr (hks.trans hk.symm) (hks ▸ hpart))

section Settled

variable (ht : t.Sound) (ha : a.Settled t) (hb : b.Settled t) (hc : c.Settled t)
include ht ha hb

theorem exists_combine (ho : t.Supports o.target) :
    ∃ r, combine t o a b = .ok r ∧ r.Settled t ∧ r.kind = o.target ∧
      r.extent = t.derive o.target (.merge o a.extent b.extent) := by
  have hnone : combineError? t o a b = none := by
    unfold combineError? hasSet
    rw [if_neg (Topology.supports_iff.1 ho), ha.isComplete, hb.isComplete]
    rfl
  have hvalid : t.error? (merge o a b).source (merge o a b).extent = none := by
    rw [extent_merge, source_merge]
    exact Topology.error?_merge (ha.inRange ht).extent (hb.inRange ht).extent
  obtain ⟨r, hr, hkind, hextent⟩ := exists_complete hvalid
  refine ⟨r, ?_, settled_of_complete kind_merge hr, ?_, ?_⟩
  · unfold combine
    rw [hnone]
    exact hr
  · rw [hkind, kind_merge, source_merge]
  · rw [hextent, extent_merge, source_merge]

theorem combine_comm (ho : t.Supports k) (h : op ≠ .subtract) :
    ∃ r s, combine t ⟨op, k⟩ a b = .ok r ∧ combine t ⟨op, k⟩ b a = .ok s ∧
      r.sameEntities s = true := by
  obtain ⟨r, hr, -, -, her⟩ := exists_combine ht ha hb (o := ⟨op, k⟩) ho
  obtain ⟨s, hs, -, -, hes⟩ := exists_combine ht hb ha (o := ⟨op, k⟩) ho
  have hextent : r.extent = s.extent := by
    rw [her, hes, Extent.merge_comm h]
  exact ⟨r, s, hr, hs, decide_eq_true hextent⟩

include hc in
theorem combine_assoc (ho : t.Supports k) (h : op ≠ .subtract) :
    ∃ ab r bc s, combine t ⟨op, k⟩ a b = .ok ab ∧ combine t ⟨op, k⟩ ab c = .ok r ∧
      combine t ⟨op, k⟩ b c = .ok bc ∧ combine t ⟨op, k⟩ a bc = .ok s ∧
        r.sameEntities s = true := by
  obtain ⟨ab, hab, hsab, -, heab⟩ := exists_combine ht ha hb (o := ⟨op, k⟩) ho
  obtain ⟨bc, hbc, hsbc, -, hebc⟩ := exists_combine ht hb hc (o := ⟨op, k⟩) ho
  obtain ⟨r, hr, -, -, her⟩ := exists_combine ht hsab hc (o := ⟨op, k⟩) ho
  obtain ⟨s, hs, -, -, hes⟩ := exists_combine ht ha hsbc (o := ⟨op, k⟩) ho
  -- of a derived extent a merge takes just the set that the others are derived from
  have hleft : Extent.merge ⟨op, k⟩ ab.extent c.extent =
      .merge ⟨op, k⟩ (.merge ⟨op, k⟩ a.extent b.extent) c.extent := by
    rw [← Extent.merge_part_left, heab, Topology.part_derive, Extent.merge_part_left]
  have hright : Extent.merge ⟨op, k⟩ a.extent bc.extent =
      .merge ⟨op, k⟩ a.extent (.merge ⟨op, k⟩ b.extent c.extent) := by
    rw [← Extent.merge_part_right, hebc, Topology.part_derive, Extent.merge_part_right]
  have hextent : r.extent = s.extent := by
    rw [her, hes, hleft, hright, Extent.merge_assoc h]
  exact ⟨ab, r, bc, s, hab, hr, hbc, hs, decide_eq_true hextent⟩

omit hb in
theorem combine_self (ho : t.Supports k) (hk : a.kind = k) (h : op ≠ .subtract) :
    ∃ r, combine t ⟨op, k⟩ a a = .ok r ∧ r.extent = a.extent ∧ r.groups = a.groups ∧
      r.shape = a.shape := by
  obtain ⟨r, hr, hs, -, he⟩ := exists_combine ht ha ha (o := ⟨op, k⟩) ho
  refine ⟨r, hr, hs.congr ha ?_⟩
  have hself : Extent.merge ⟨op, k⟩ a.extent a.extent = a.extent.part k := Extent.merge_self h
  rw [he, hself, ha.extent_eq, hk, Topology.part_derive, Topology.derive_part]

end Settled

theorem combine_subtract_self {m : Mesh} (ht : (Topology.ofMesh m).Sound)
    (ha : a.Settled (.ofMesh m)) (ho : (Topology.ofMesh m).Supports k) :
    ∃ r, combine (.ofMesh m) ⟨.subtract, k⟩ a a = .ok r ∧ r.isEmpty = true := by
  obtain ⟨r, hr, -, -, he⟩ := exists_combine ht ha ha (o := ⟨.subtract, k⟩) ho
  have hextent : r.extent = {} := by
    rw [he, Extent.merge_subtract_self, Topology.derive_empty]
  refine ⟨r, hr, ?_⟩
  rw [isEmpty, hextent]
  rfl

/-! ## Operands that are not complete -/

/-- The set of a kind is not there to be read. -/
def Lacks (r : Region) (k : Kind) : Prop := r.isComplete = false ∧ r.kind ≠ k

theorem hasSet_eq_false_iff (hr : r.kind = r.source) : (!r.hasSet k) = true ↔ r.Lacks k := by
  unfold hasSet Lacks
  rw [hr]
  cases r.isComplete <;> simp

theorem combine_of_unsupported (hk : o.target = .face) (hf : t.hasFaces = false) :
    combine t o a b = .error (.unsupported o.text .faces) := by
  have herr : combineError? t o a b = some (.unsupported o.text .faces) := by
    unfold combineError?
    rw [if_pos ⟨hk, by rw [hf]; rfl⟩]
  unfold combine
  rw [herr]

/-- Only faces keep settled regions from being combined. -/
theorem combine_eq_error (ht : t.Sound) (ha : a.Settled t) (hb : b.Settled t) {e : RegionError}
    (h : combine t o a b = .error e) :
    o.target = .face ∧ t.hasFaces = false ∧ e = .unsupported o.text .faces := by
  by_cases ho : t.Supports o.target
  · obtain ⟨r, hr, -⟩ := exists_combine ht ha hb ho
    cases hr.symm.trans h
  · obtain ⟨hk, hf⟩ := Topology.not_supports_iff.1 ho
    cases (combine_of_unsupported hk hf).symm.trans h
    exact ⟨hk, hf, rfl⟩

/-- Completion refuses indices only. -/
theorem complete_ne_missing {name : String} : r.complete t ≠ .error (.missingEntities name k) := by
  intro h
  unfold complete at h
  split at h
  · rename_i e he
    have hindex := Topology.isIndexError_of_error? he
    rw [Except.error.inj h] at hindex
    exact hindex
  · cases h

theorem combine_eq_missing_iff (ha : a.kind = a.source) (hb : b.kind = b.source) {name : String} :
    combine t o a b = .error (.missingEntities name k) ↔ t.Supports o.target ∧ k = o.target ∧
      ((a.Lacks o.target ∧ name = a.name) ∨
        (¬ a.Lacks o.target ∧ b.Lacks o.target ∧ name = b.name)) := by
  unfold combine combineError?
  by_cases hface : o.target = .face ∧ (!t.hasFaces) = true
  · rw [if_pos hface]
    refine iff_of_false (by simp) fun h => ?_
    have hfaces := h.1 hface.1
    simp [hfaces] at hface
  have ho : t.Supports o.target := Topology.supports_iff.2 hface
  rw [if_neg hface]
  by_cases hla : a.Lacks o.target
  · rw [if_pos ((hasSet_eq_false_iff ha).2 hla)]
    simp [ho, hla, eq_comm, and_comm]
  rw [if_neg fun h => hla ((hasSet_eq_false_iff ha).1 h)]
  by_cases hlb : b.Lacks o.target
  · rw [if_pos ((hasSet_eq_false_iff hb).2 hlb)]
    simp [ho, hla, hlb, eq_comm, and_comm]
  · rw [if_neg fun h => hlb ((hasSet_eq_false_iff hb).1 h)]
    exact iff_of_false complete_ne_missing (by simp [hla, hlb])

/-! ## The laws -/

/-- What combination obeys on a topology. -/
structure Laws (t : Topology) : Prop where
  unsupported : ∀ o a b, o.target = .face → t.hasFaces = false →
    combine t o a b = .error (.unsupported o.text .faces)
  combined : ∀ o a b, t.Supports o.target → a.Settled t → b.Settled t →
    ∃ r, combine t o a b = .ok r ∧ Combined t o a b r
  comm : ∀ op k a b, op ≠ .subtract → t.Supports k → a.Settled t → b.Settled t →
    ∃ r s, combine t ⟨op, k⟩ a b = .ok r ∧ combine t ⟨op, k⟩ b a = .ok s ∧
      r.sameEntities s = true
  assoc : ∀ op k a b c, op ≠ .subtract → t.Supports k →
    a.Settled t → b.Settled t → c.Settled t →
      ∃ ab r bc s, combine t ⟨op, k⟩ a b = .ok ab ∧ combine t ⟨op, k⟩ ab c = .ok r ∧
        combine t ⟨op, k⟩ b c = .ok bc ∧ combine t ⟨op, k⟩ a bc = .ok s ∧
          r.sameEntities s = true
  subtract_self : ∀ k a, t.Supports k → a.Settled t →
    ∃ r, combine t ⟨.subtract, k⟩ a a = .ok r ∧ r.isEmpty = true
  self : ∀ op k a, op ≠ .subtract → t.Supports k → a.Settled t → a.kind = k →
    ∃ r, combine t ⟨op, k⟩ a a = .ok r ∧ r.extent = a.extent ∧ r.groups = a.groups ∧
      r.shape = a.shape
  /-- The left operand is reported first, and only where faces are not refused. -/
  missing : ∀ o a b, a.kind = a.source → b.kind = b.source → ∀ name k,
    combine t o a b = .error (.missingEntities name k) ↔ t.Supports o.target ∧ k = o.target ∧
      ((a.Lacks o.target ∧ name = a.name) ∨
        (¬ a.Lacks o.target ∧ b.Lacks o.target ∧ name = b.name))

/-- On the topology of a mesh that was built, combination obeys the laws of sets. -/
theorem combine_laws {m : Mesh} (hm : m.Built) : Laws (.ofMesh m) where
  unsupported _ _ _ hk hf := combine_of_unsupported hk hf
  combined o a b ho ha hb := by
    obtain ⟨r, hr, hs, hk, he⟩ := exists_combine (Topology.sound_ofMesh hm.valid) ha hb ho
    exact ⟨r, hr, combined_of_extent hs hk he⟩
  comm _ _ _ _ h ho ha hb := combine_comm (Topology.sound_ofMesh hm.valid) ha hb ho h
  assoc _ _ _ _ _ h ho ha hb hc := combine_assoc (Topology.sound_ofMesh hm.valid) ha hb hc ho h
  subtract_self _ _ ho ha := combine_subtract_self (Topology.sound_ofMesh hm.valid) ha ho
  self _ _ _ h ho ha hk := combine_self (Topology.sound_ofMesh hm.valid) ha ho hk h
  missing _ _ _ ha hb _ _ := combine_eq_missing_iff ha hb

/-- Two sides of the cube, the bottom and the front, as combined by their faces. -/
theorem combine_laws_cube :
    let t := Topology.ofMesh (.unitCube 1)
    let bottom := ((ofVertices "bottom" (.ofList [0, 1, 2, 3])).completed t).region
    let front := ((ofVertices "front" (.ofList [0, 1, 4, 5])).completed t).region
    t.hasFaces = true ∧ bottom.shape.faces = 1 ∧ front.shape.faces = 1 ∧
      ∃ r, combine t ⟨.add, .face⟩ bottom front = .ok r ∧
        Combined t ⟨.add, .face⟩ bottom front r := by
  intro t bottom front
  have hfaces : t.hasFaces = true := by decide +kernel
  have hbottom : (ofVertices "bottom" (.ofList [0, 1, 2, 3])).complete t = .ok bottom :=
    completed_eq_ok_iff.1 (congrArg (Change.mk _) (Option.isNone_iff_eq_none.1 (by decide +kernel)))
  have hfront : (ofVertices "front" (.ofList [0, 1, 4, 5])).complete t = .ok front :=
    completed_eq_ok_iff.1 (congrArg (Change.mk _) (Option.isNone_iff_eq_none.1 (by decide +kernel)))
  refine ⟨hfaces, by decide +kernel, by decide +kernel, ?_⟩
  exact (combine_laws (Mesh.built_unitCube 1)).combined _ _ _ (fun _ => hfaces)
    (settled_of_complete rfl hbottom) (settled_of_complete rfl hfront)

end Region

end Subdomain

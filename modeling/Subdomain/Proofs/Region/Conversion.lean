import Subdomain.Region.Algebra
import Subdomain.Proofs.Region.Range

/-!
# What a conversion does

A conversion that succeeds has completed the region and then, for another kind,
promoted the set of that kind and completed again (`setKind_eq_ok`). Completion
and conversion keep the name, the definition and the parent. What they leave is
settled: it is complete, and completing it again changes nothing.
-/

namespace Subdomain

namespace Region

variable {t : Topology} {k : Kind} {r s : Region}

/-- What is written on a region besides its entities. -/
def label (r : Region) : String × String × Option String := (r.name, r.definition, r.parent)

theorem complete_eq_ok_iff :
    r.complete t = .ok s ↔ t.error? r.source r.extent = none ∧
      s = { r with
        isComplete := true
        extent := t.derive r.source r.extent
        groups := t.groupsUsing (t.derive r.source r.extent).vertices
        shape := (t.derive r.source r.extent).shape } := by
  unfold complete
  cases t.error? r.source r.extent with
  | none => simp [eq_comm]
  | some e => simp

theorem label_complete (h : r.complete t = .ok s) : s.label = r.label := by
  obtain ⟨-, rfl⟩ := complete_eq_ok_iff.1 h
  rfl

theorem ensureComplete_eq_ok_iff :
    r.ensureComplete t = .ok s ↔
      (r.isComplete = true ∧ s = r) ∨ (r.isComplete = false ∧ r.complete t = .ok s) := by
  unfold ensureComplete
  cases r.isComplete <;> simp [eq_comm]

theorem label_ensureComplete (h : r.ensureComplete t = .ok s) : s.label = r.label := by
  obtain ⟨-, rfl⟩ | ⟨-, h⟩ := ensureComplete_eq_ok_iff.1 h
  · rfl
  · exact label_complete h

theorem completed_eq_ok_iff : r.completed t = ⟨s, none⟩ ↔ r.complete t = .ok s := by
  unfold completed
  cases r.complete t <;> simp

theorem setKind_eq_ok (h : r.setKind t k = ⟨s, none⟩) :
    (k = .face → t.hasFaces = true) ∧ ∃ u, r.ensureComplete t = .ok u ∧
      ((k = u.source ∧ s = { u with kind := k }) ∨
        (k ≠ u.source ∧ (u.promote k).complete t = .ok s)) := by
  unfold setKind at h
  split at h
  · cases h
  · rename_i hf
    refine ⟨fun hk => by simpa [hk] using hf, ?_⟩
    split at h
    · cases h
    · rename_i u hu
      refine ⟨u, hu, ?_⟩
      split at h
      · rename_i hk
        cases h
        exact .inl ⟨hk, rfl⟩
      · rename_i hk
        exact .inr ⟨hk, completed_eq_ok_iff.1 h⟩

theorem label_setKind (h : r.setKind t k = ⟨s, none⟩) : s.label = r.label := by
  obtain ⟨-, u, hu, ⟨-, rfl⟩ | ⟨-, hs⟩⟩ := setKind_eq_ok h
  · have hk : ({ u with kind := k } : Region).label = u.label := rfl
    rw [hk, label_ensureComplete hu]
  · have hp : (u.promote k).label = u.label := rfl
    rw [label_complete hs, hp, label_ensureComplete hu]

/-! ## Settled regions -/

/-- The region is complete, and its sets are those that its authoritative set gives, the set of
its kind. -/
structure Settled (t : Topology) (r : Region) : Prop where
  kind : r.kind = r.source
  isComplete : r.isComplete = true
  valid : t.error? r.source r.extent = none
  derived : t.derive r.source r.extent = r.extent
  groups : t.groupsUsing r.extent.vertices = r.groups
  shape : r.extent.shape = r.shape

theorem error?_derive {x : Extent} : t.error? k (t.derive k x) = t.error? k x := by
  cases k <;> rfl

theorem derive_derive {x : Extent} : t.derive k (t.derive k x) = t.derive k x := by
  cases k <;> rfl

/-- What is in range can be completed. -/
theorem exists_complete (h : t.error? r.source r.extent = none) :
    ∃ s, r.complete t = .ok s ∧ s.kind = r.kind ∧ s.extent = t.derive r.source r.extent :=
  ⟨_, complete_eq_ok_iff.2 ⟨h, rfl⟩, rfl, rfl⟩

theorem settled_of_complete (hk : r.kind = r.source) (h : r.complete t = .ok s) :
    s.Settled t := by
  obtain ⟨hv, rfl⟩ := complete_eq_ok_iff.1 h
  exact ⟨hk, rfl, error?_derive.trans hv, derive_derive, rfl, rfl⟩

theorem settled_of_ensureComplete (hk : r.kind = r.source)
    (hr : r.isComplete = true → r.Settled t) (h : r.ensureComplete t = .ok s) : s.Settled t := by
  obtain ⟨hc, rfl⟩ | ⟨-, h⟩ := ensureComplete_eq_ok_iff.1 h
  · exact hr hc
  · exact settled_of_complete hk h

theorem Settled.relabel (h : r.Settled t) (name definition : String) (parent : Option String) :
    ({ r with name, definition, parent } : Region).Settled t :=
  ⟨h.kind, h.isComplete, h.valid, h.derived, h.groups, h.shape⟩

theorem kind_merge {o : SetOperator} {a b : Region} :
    (merge o a b).kind = (merge o a b).source := by
  unfold merge
  split <;> rfl

theorem settled_of_combine {o : SetOperator} {a b : Region} (h : combine t o a b = .ok s) :
    s.Settled t := by
  unfold combine at h
  split at h
  · cases h
  · exact settled_of_complete kind_merge h

theorem Settled.complete_eq (h : r.Settled t) : r.complete t = .ok r := by
  rw [complete_eq_ok_iff, h.derived, h.groups, h.shape, ← h.isComplete]
  exact ⟨h.valid, rfl⟩

theorem settled_setKind (hk : r.kind = r.source) (hr : r.isComplete = true → r.Settled t)
    (h : r.setKind t k = ⟨s, none⟩) : s.Settled t ∧ s.kind = k := by
  obtain ⟨-, u, hu, ⟨hk', rfl⟩ | ⟨-, hs⟩⟩ := setKind_eq_ok h
  · have hset := settled_of_ensureComplete hk hr hu
    exact ⟨⟨hk', hset.isComplete, hset.valid, hset.derived, hset.groups, hset.shape⟩, rfl⟩
  · refine ⟨settled_of_complete rfl hs, ?_⟩
    obtain ⟨-, rfl⟩ := complete_eq_ok_iff.1 hs
    rfl

/-- Every index of the region is one of the topology. -/
structure InRange (t : Topology) (r : Region) : Prop where
  extent : r.extent.InRange t
  groups : ∀ ig ∈ r.groups, ig < t.groupCount

theorem Settled.inRange (ht : t.Sound) (h : r.Settled t) : r.InRange t where
  extent := h.derived ▸ ht.inRange_derive h.valid
  groups ig hig := by
    rw [← h.groups] at hig
    obtain ⟨g, hg, rfl, -⟩ := Topology.mem_groupsUsing.1 hig
    exact (List.getElem?_eq_some_iff.1 (ht.group?_of_mem hg)).1

end Region

theorem Change.toExcept_eq_ok_iff {c : Change} {r : Region} :
    c.toExcept = .ok r ↔ c = ⟨r, none⟩ := by
  obtain ⟨s, _ | e⟩ := c <;> simp [toExcept]

end Subdomain

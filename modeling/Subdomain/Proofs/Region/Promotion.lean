import Subdomain.Mesh.Grid
import Subdomain.Proofs.Region.Edits
import Subdomain.Proofs.Region.Raises
import Subdomain.Proofs.Region.RoundTrip

/-!
# What a conversion keeps

A region is current on a topology if it is not complete or was completed there
(`Region.Current`); whatever edits on one topology lead to is current on it. A current
region converts as its completion does, and on the topology of a mesh that was built
the set of any kind of a completed region is in the mesh again. So a conversion fails only
for faces where there are none, or for what the region was made of; otherwise it keeps the
set of the new kind and derives all others from it (`setKind_converts`).
-/

namespace Subdomain

namespace Region

variable {m : Mesh} {t : Topology} {k : Kind} {r u s : Region}

/-- The region is not complete, or it was completed on the topology. -/
def Current (t : Topology) (r : Region) : Prop :=
  r.isComplete = false ∨ ∃ r₀ : Region, r₀.complete t = .ok r

theorem Tidy.current (h : r.Tidy t) : r.Current t := by
  cases hr : r.isComplete with
  | false => exact .inl hr
  | true => exact .inr ⟨r, (h.settled hr).complete_eq⟩

theorem current_after (m : Mesh) (name : String) (edits : List GroupedRegion.Edit) :
    ((GroupedRegion.empty name).after (.ofMesh m) edits).flat.Current (.ofMesh m) :=
  (GroupedRegion.tidy_after (GroupedRegion.tidy_empty name) edits).flat.current

/-- Whatever its kind was called, a completed region is settled as one of the kind of its set. -/
theorem settled_of_completed (h : r.complete t = .ok u) :
    ({ u with kind := u.source } : Region).Settled t := by
  refine settled_of_complete (r := { r with kind := r.source }) rfl ?_
  obtain ⟨hvalid, rfl⟩ := complete_eq_ok_iff.1 h
  exact complete_eq_ok_iff.2 ⟨hvalid, rfl⟩

theorem complete_complete (h : r.complete t = .ok u) : u.complete t = .ok u := by
  obtain ⟨hvalid, rfl⟩ := complete_eq_ok_iff.1 h
  refine complete_eq_ok_iff.2 ⟨error?_derive.trans hvalid, ?_⟩
  simp only [derive_derive]

section Current

variable (hr : r.Current t)
include hr

theorem Current.complete_eq (hcomplete : r.isComplete = true) : r.complete t = .ok r := by
  obtain hincomplete | ⟨r₀, hr₀⟩ := hr
  · cases hcomplete.symm.trans hincomplete
  · exact complete_complete hr₀

theorem Current.ensureComplete_eq : r.ensureComplete t = r.complete t := by
  unfold ensureComplete
  split
  · rename_i hcomplete
    exact (hr.complete_eq hcomplete).symm
  · rfl

theorem Current.setKind_eq (hu : r.complete t = .ok u) (hk : t.Supports k) :
    r.setKind t k = ({ u with kind := u.source } : Region).setKind t k := by
  have hsettled := settled_of_completed hu
  have hagain : ({ u with kind := u.source } : Region).ensureComplete t =
      .ok { u with kind := u.source } :=
    ensureComplete_eq_ok_iff.2 (.inl ⟨hsettled.isComplete, rfl⟩)
  unfold setKind
  rw [if_neg (Topology.supports_iff.1 hk), if_neg (Topology.supports_iff.1 hk),
    hr.ensureComplete_eq, hu, hagain]
  rfl

end Current

/-- The region `s` is the completed region `u` made one of the kind `k`. -/
structure ConvertsTo (m : Mesh) (k : Kind) (u s : Region) : Prop where
  label : s.label = u.label
  kind : s.kind = k
  source : s.source = k
  isComplete : s.isComplete = true
  kept : s.extent.part k = u.extent.part k
  /-- All other sets follow from the one that is kept. -/
  derived : m.Derives k u.extent s.extent
  current : s.complete (.ofMesh m) = .ok s

section Mesh

variable (ht : (Topology.ofMesh m).Sound) (hr : r.Current (.ofMesh m))
  (hk : (Topology.ofMesh m).Supports k)
include ht hr hk

theorem Current.exists_setKind (hu : r.complete (.ofMesh m) = .ok u) :
    ∃ s, r.setKind (.ofMesh m) k = ⟨s, none⟩ ∧ ConvertsTo m k u s := by
  have hsettled := settled_of_completed hu
  obtain ⟨s, hs, hkind, hextent⟩ := Region.exists_setKind ht hsettled hk
  obtain ⟨hset, -⟩ := settled_setKind hsettled.kind (fun _ => hsettled) hs
  refine ⟨s, (hr.setKind_eq hu hk).trans hs, ?_⟩
  exact {
    label := (label_setKind hs).trans rfl
    kind := hkind
    source := hset.kind.symm.trans hkind
    isComplete := hset.isComplete
    kept := by rw [hextent, Topology.part_derive]
    derived := by
      rw [hextent]
      exact Topology.derives_derive
    current := hset.complete_eq }

omit ht in
/-- A region that cannot be completed is not converted. -/
theorem Current.setKind_of_not_holds (hx : ¬ m.Holds r.source r.extent) :
    r.isComplete = false ∧ ∃ e, (r.setKind (.ofMesh m) k).error? = some e := by
  have hcomplete : ∃ e, r.complete (.ofMesh m) = .error e := by
    unfold complete
    cases herror : (Topology.ofMesh m).error? r.source r.extent with
    | none => exact absurd (Topology.error?_ofMesh_eq_none_iff.1 herror) hx
    | some e => exact ⟨e, rfl⟩
  obtain ⟨e, he⟩ := hcomplete
  refine ⟨Bool.eq_false_iff.2 fun htrue => ?_, e, ?_⟩
  · cases (hr.complete_eq htrue).symm.trans he
  · unfold setKind
    rw [if_neg (Topology.supports_iff.1 hk), hr.ensureComplete_eq, he]

theorem Current.setKind_of_holds (hx : m.Holds r.source r.extent) :
    ∃ u s, r.complete (.ofMesh m) = .ok u ∧ r.setKind (.ofMesh m) k = ⟨s, none⟩ ∧
      ConvertsTo m k u s := by
  obtain ⟨u, hu, -⟩ := exists_complete (Topology.error?_ofMesh_eq_none_iff.2 hx)
  obtain ⟨s, hs, hconverts⟩ := hr.exists_setKind ht hk hu
  exact ⟨u, s, hu, hs, hconverts⟩

end Mesh

/-- On a mesh that was built a region, not yet complete or completed on it, is converted unless
there are no faces to convert it to or the mesh does not have what the region was made of. The
set of the new kind is that of the completed region, and the others follow from it. -/
theorem setKind_converts (hm : m.Built) (hr : r.Current (.ofMesh m)) (k : Kind) :
    ((∃ e, (r.setKind (.ofMesh m) k).error? = some e) ↔
      (k = .face ∧ (Topology.ofMesh m).hasFaces = false) ∨
        (r.isComplete = false ∧ ¬ m.Holds r.source r.extent)) ∧
    ∀ s, r.setKind (.ofMesh m) k = ⟨s, none⟩ →
      ∃ u, r.complete (.ofMesh m) = .ok u ∧ ConvertsTo m k u s := by
  have ht := Topology.sound_ofMesh hm.valid
  rw [← Topology.not_supports_iff]
  by_cases hk : (Topology.ofMesh m).Supports k
  · by_cases hx : m.Holds r.source r.extent
    · obtain ⟨u, s, hu, hs, hconverts⟩ := hr.setKind_of_holds ht hk hx
      refine ⟨iff_of_false ?_ (by simp [hk, hx]), fun s' hs' => ?_⟩
      · rw [hs]
        simp
      · cases hs.symm.trans hs'
        exact ⟨u, hu, hconverts⟩
    · obtain ⟨hincomplete, e, he⟩ := hr.setKind_of_not_holds hk hx
      refine ⟨iff_of_true ⟨e, he⟩ (.inr ⟨hincomplete, hx⟩), fun s hs => ?_⟩
      rw [hs] at he
      cases he
  · rw [setKind_of_unsupported hk]
    exact ⟨iff_of_true ⟨_, rfl⟩ (.inl hk), fun s hs => by cases hs⟩

/-- The bottom of the cube with a vertex above it, completed and then made a region of faces. -/
theorem setKind_converts_cube :
    let t := Topology.ofMesh (.unitCube 1)
    ∃ r s, (ofVertices "bottom" (.ofList [0, 1, 2, 3, 4])).complete t = .ok r ∧
      r.setKind t .face = ⟨s, none⟩ ∧ ConvertsTo (.unitCube 1) .face r s ∧
        s.vertices.toList = [0, 1, 2, 3] := by
  intro t
  obtain ⟨r, hr, h⟩ : ∃ r, (ofVertices "bottom" (.ofList [0, 1, 2, 3, 4])).complete t = .ok r ∧
      ((r.setKind t .face).error?, (r.setKind t .face).region.vertices.toList) =
        (none, [0, 1, 2, 3]) :=
    exists_ok_of_toOption (by decide +kernel)
  simp only [Prod.mk.injEq] at h
  have hs : r.setKind t .face = ⟨(r.setKind t .face).region, none⟩ := by rw [← h.1]
  obtain ⟨u, hu, hconverts⟩ :=
    (setKind_converts (Mesh.built_unitCube 1) (.inr ⟨_, hr⟩) .face).2 _ hs
  cases (complete_complete hr).symm.trans hu
  exact ⟨r, _, hr, hs, hconverts, h.2⟩

end Region

end Subdomain

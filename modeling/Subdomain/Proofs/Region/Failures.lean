import Subdomain.Mesh.Grid
import Subdomain.Proofs.Region.Raises
import Subdomain.Proofs.Region.RoundTrip

/-!
# What a failed change leaves

A completion checks the authoritative set before it derives anything, so one that
fails leaves the region as it was. A conversion can fail at three places: where the
domain does not have the kind, in the first completion, and in the last. By the last
one the authoritative set has given way to the set of the new kind, and if that is not
in the topology the region is not as it was (`FailsLate`). On a sound topology on which
the region was completed this does not happen (`failed_changes`). On another one it
does, and the set that the region was made of is lost (`setKind_foreign`).
-/

namespace Subdomain

namespace Region

variable {t : Topology} {k : Kind} {r u : Region} {e : RegionError}

theorem completed_failed (h : (r.completed t).error? = some e) :
    (r.completed t).region = r ∧ t.error? r.source r.extent = some e := by
  unfold completed complete at h ⊢
  cases hx : t.error? r.source r.extent with
  | none =>
    rw [hx] at h
    cases h
  | some e' =>
    rw [hx] at h
    cases h
    exact ⟨rfl, rfl⟩

/-- The region is completed to `u`, whose set of the kind `k` is not in the topology. -/
structure FailsLate (t : Topology) (k : Kind) (e : RegionError) (r u : Region) : Prop where
  supports : t.Supports k
  completed : r.ensureComplete t = .ok u
  source : k ≠ u.source
  error : t.error? k (u.extent.part k) = some e

/-- What is left is the promoted set alone. -/
theorem FailsLate.setKind_eq (h : FailsLate t k e r u) :
    r.setKind t k = ⟨u.promote k, some e⟩ := by
  have hpromoted : (u.promote k).completed t = ⟨u.promote k, some e⟩ := by
    have herror : t.error? (u.promote k).source (u.promote k).extent = some e := h.error
    rw [Region.completed, complete, herror]
  unfold setKind
  rw [if_neg (Topology.supports_iff.1 h.supports), h.completed]
  exact (if_neg h.source).trans hpromoted

theorem FailsLate.promote_ne (h : FailsLate t k e r u) : u.promote k ≠ r := by
  rintro rfl
  obtain ⟨hcomplete, -⟩ | ⟨-, hu⟩ := ensureComplete_eq_ok_iff.1 h.completed
  · cases hcomplete
  · obtain ⟨-, hu⟩ := complete_eq_ok_iff.1 hu
    exact h.source (congrArg Region.source hu).symm

theorem setKind_failed (h : (r.setKind t k).error? = some e) :
    (r.setKind t k).region = r ∨ ∃ u, FailsLate t k e r u := by
  by_cases hk : t.Supports k
  · unfold setKind at h ⊢
    rw [if_neg (Topology.supports_iff.1 hk)] at h ⊢
    cases hu : r.ensureComplete t with
    | error e' => exact .inl rfl
    | ok u =>
      rw [hu] at h
      dsimp only at h
      split at h
      · cases h
      · rename_i hsource
        exact .inr ⟨u, hk, hu, hsource, (completed_failed h).2⟩
  · left
    rw [setKind_of_unsupported hk]

/-- What was derived on a sound topology can be promoted. -/
theorem Tidy.not_failsLate (hr : r.Tidy t) (ht : t.Sound) : ¬ FailsLate t k e r u := by
  intro h
  have hsettled := settled_of_ensureComplete hr.kind hr.settled h.completed
  have herror := h.error
  rw [Topology.error?_part (hsettled.inRange ht).extent] at herror
  cases herror

/-- A completion that fails leaves the region as it was. So does a conversion, unless it fails
late and leaves the promoted set; that is never what the region was, and cannot happen if the
region, complete or not, belongs to a sound topology. -/
theorem failed_changes (t : Topology) (r : Region) :
    (∀ e, (r.completed t).error? = some e → (r.completed t).region = r) ∧
    ∀ k e, (r.setKind t k).error? = some e →
      ((r.setKind t k).region = r ∨
        ∃ u, FailsLate t k e r u ∧ (r.setKind t k).region = u.promote k ∧ u.promote k ≠ r) ∧
      (t.Sound → r.Tidy t → (r.setKind t k).region = r) := by
  refine ⟨fun e h => (completed_failed h).1, fun k e h => ⟨?_, fun ht hr => ?_⟩⟩
  · refine (setKind_failed h).imp_right fun ⟨u, hu⟩ => ⟨u, hu, ?_, hu.promote_ne⟩
    rw [hu.setKind_eq]
  · exact (setKind_failed h).resolve_right fun ⟨_, hu⟩ => hr.not_failsLate ht hu

/-- Two squares completed on their own mesh and then converted to cells on the mesh of one: there
is no second cell, and the vertices are gone. -/
theorem setKind_foreign :
    let vertices := List.range 6
    ∃ r, (ofVertices "plate" (.ofList vertices)).complete (.ofMesh (.unitSquare 2 1)) = .ok r ∧
      r.vertices.toList = vertices ∧
      let c := r.setKind (.ofMesh (.unitSquare 1 1)) .cell
      c.error? = some (.invalidCellIndex 1 1) ∧ c.region.vertices.toList = [] ∧ c.region ≠ r := by
  intro vertices
  obtain ⟨r, hr, h⟩ : ∃ r,
      (ofVertices "plate" (.ofList vertices)).complete (.ofMesh (.unitSquare 2 1)) = .ok r ∧
        (r.vertices.toList, (r.setKind (.ofMesh (.unitSquare 1 1)) .cell).error?,
          (r.setKind (.ofMesh (.unitSquare 1 1)) .cell).region.vertices.toList) =
            (vertices, some (.invalidCellIndex 1 1), []) :=
    exists_ok_of_toOption (by decide +kernel)
  simp only [Prod.mk.injEq] at h
  obtain ⟨hvertices, herror, hgone⟩ := h
  refine ⟨r, hr, hvertices, herror, hgone, fun hsame => ?_⟩
  rw [hsame, hvertices] at hgone
  exact absurd hgone (by decide)

end Region

end Subdomain

import Subdomain.Mesh.Grid
import Subdomain.Proofs.Evaluation.Settled
import Subdomain.Proofs.Mesh.Built

/-!
# Completeness

A leaf completes what it makes and what it copies, but a reference gives a region as it is
stored (`Origin`), and a collection takes regions that are not complete. Combination
completes what it gives, whatever its operands are. So a run gives an incomplete region
only if the program is nothing but a reference to one (`completeness`), and there a copy
gives another region.
-/

namespace Subdomain

namespace Region

variable {t : Topology} {r s : Region}

theorem isComplete_of_complete (h : r.complete t = .ok s) : s.isComplete = true := by
  obtain ⟨-, rfl⟩ := complete_eq_ok_iff.1 h
  rfl

theorem isComplete_of_ensureComplete (h : r.ensureComplete t = .ok s) : s.isComplete = true := by
  obtain ⟨hr, rfl⟩ | ⟨-, hs⟩ := ensureComplete_eq_ok_iff.1 h
  · exact hr
  · exact isComplete_of_complete hs

theorem ensureComplete_eq_self_iff : r.ensureComplete t = .ok r ↔ r.isComplete = true := by
  rw [ensureComplete_eq_ok_iff]
  constructor
  · rintro (⟨hr, -⟩ | ⟨-, hr⟩)
    · exact hr
    · exact isComplete_of_complete hr
  · intro hr
    exact .inl ⟨hr, rfl⟩

theorem sameEntities_of_ensureComplete (h : r.ensureComplete t = .ok s) :
    r.sameEntities s = true ↔ r.isComplete = true ∨ r.extent = t.derive r.source r.extent := by
  obtain ⟨hr, rfl⟩ | ⟨hr, hs⟩ := ensureComplete_eq_ok_iff.1 h
  · exact iff_of_true (decide_eq_true rfl) (.inl hr)
  · obtain ⟨-, rfl⟩ := complete_eq_ok_iff.1 hs
    simp [sameEntities, hr]

end Region

namespace Context

open Selection

variable {x : Context}

theorem isComplete_of_evalLeaf {l : Leaf} {r : Region} (h : x.evalLeaf l = .ok r) :
    r.isComplete = true ∨ ∃ n, l = .region n ∧ x.regions.get? n = some r := by
  cases origin_of_evalLeaf h with
  | stored hr => exact .inr ⟨_, rfl, hr⟩
  | copied _ hr => exact .inl (Region.isComplete_of_ensureComplete hr)
  | made hr => exact .inl (settled_made hr).isComplete

/-- An incomplete result has met no operator: it is all there is on the stack, or what a lone
reference has just put there. -/
theorem isComplete_of_runFrom {s : List Region} {p : Program} {r : Region}
    (h : x.runFrom s p = .ok r) : r.isComplete = true ∨ (p = [] ∧ s = [r]) ∨
      (s = [] ∧ ∃ n, p = [.push (.region n)] ∧ x.regions.get? n = some r) := by
  induction p generalizing s with
  | nil =>
    by_cases hl : s.length = 1
    · obtain ⟨u, rfl⟩ := List.length_eq_one_iff.1 hl
      cases h
      exact .inr (.inl ⟨rfl, rfl⟩)
    · rw [runFrom_nil hl] at h
      cases h
  | cons i p ih =>
    cases i with
    | push l =>
      rw [runFrom_push] at h
      obtain ⟨u, hu, hr⟩ := exists_ok_of_bind h
      obtain hcomplete | ⟨rfl, hs⟩ | ⟨hs, -⟩ := ih hr
      · exact .inl hcomplete
      · obtain ⟨rfl, rfl⟩ := List.cons.inj hs
        exact (isComplete_of_evalLeaf hu).imp_right fun ⟨n, hl, hn⟩ =>
          .inr ⟨rfl, n, by rw [hl], hn⟩
      · cases hs
    | apply o =>
      match s with
      | [] | [_] => rw [runFrom_apply_short (by simp)] at h; cases h
      | b :: a :: s =>
        rw [runFrom_apply] at h
        obtain ⟨u, hu, hr⟩ := exists_ok_of_bind h
        obtain hcomplete | ⟨-, hs⟩ | ⟨hs, -⟩ := ih hr
        · exact .inl hcomplete
        · obtain ⟨rfl, -⟩ := List.cons.inj hs
          exact .inl (Region.settled_of_combine hu).isComplete
        · cases hs

/-- Where evaluation gives complete regions, whatever state the stored ones are in. -/
structure Completeness (x : Context) : Prop where
  leaf : ∀ l r, r.isComplete = false →
    (x.evalLeaf l = .ok r ↔ ∃ n, l = .region n ∧ x.regions.get? n = some r)
  run : ∀ p r, r.isComplete = false →
    (x.run p = .ok r ↔ ∃ n, p = [.push (.region n)] ∧ x.regions.get? n = some r)
  copy : ∀ n r, x.regions.get? n = some r →
    (x.evalLeaf (.copy n) = x.evalLeaf (.region n) ↔ r.isComplete = true)
  entities : ∀ n r u, x.evalLeaf (.region n) = .ok r → x.evalLeaf (.copy n) = .ok u →
    (r.sameEntities u = true ↔
      r.isComplete = true ∨ r.extent = x.topology.derive r.source r.extent)

/-- A region that is not complete comes from a reference to such a region and from nothing else, and
only there a copy may have other entities than the region itself. -/
theorem completeness (x : Context) : x.Completeness where
  leaf l r hr := by
    constructor
    · intro h
      exact (isComplete_of_evalLeaf h).resolve_left (by simp [hr])
    · rintro ⟨n, rfl, hn⟩
      exact evalLeaf_region hn
  run p r hr := by
    constructor
    · intro h
      obtain hcomplete | ⟨-, hs⟩ | ⟨-, hp⟩ := isComplete_of_runFrom h
      · cases hr.symm.trans hcomplete
      · cases hs
      · exact hp
    · rintro ⟨n, rfl, hn⟩
      rw [Context.run, runFrom_push, evalLeaf_region hn]
      rfl
  copy n r hr := by
    rw [evalLeaf_region hr, evalLeaf_copy hr]
    exact Region.ensureComplete_eq_self_iff
  entities n r u hr hu := by
    rw [evalLeaf_copy (Collection.get_eq_ok_iff.1 hr)] at hu
    exact Region.sameEntities_of_ensureComplete hu

/-- A stored region of vertices that nobody has completed. -/
theorem evalLeaf_incomplete :
    let m := Mesh.unitSquare 2 1
    let left := Region.ofVertices "Left" (.ofList [0, 1, 3, 4])
    ∃ c, Collection.empty.add left = (.ok (), c) ∧ m.Built ∧
      let x : Context := ⟨m, .ofMesh m, c, .empty⟩
      ∃ r u, x.evalLeaf (.region "Left") = .ok r ∧ x.evalLeaf (.copy "Left") = .ok u ∧
        r.isComplete = false ∧ u.isComplete = true ∧ r.sameEntities u = false := by
  intro m left
  refine ⟨Collection.empty.insert left, rfl, Mesh.built_unitSquare 2 1, ?_⟩
  intro x
  have hr : x.evalLeaf (.region "Left") = .ok left := rfl
  obtain ⟨u, hu, h⟩ : ∃ u, x.evalLeaf (.copy "Left") = .ok u ∧
      (left.isComplete, u.isComplete, left.sameEntities u) = (false, true, false) :=
    exists_ok_of_toOption (by decide +kernel)
  simp only [Prod.mk.injEq] at h
  exact ⟨left, u, hr, hu, h⟩

end Context

end Subdomain

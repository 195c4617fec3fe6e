import Subdomain.Proofs.Evaluation.Machine
import Subdomain.Proofs.Region.Conversion

/-!
# Evaluation gives settled regions

Next to settled regions every leaf, and so every program, gives a settled region.
-/

namespace Subdomain

/-- Every region of the collection is settled. -/
def Collection.Settled (t : Topology) (c : Collection) : Prop :=
  ∀ n r, c.get? n = some r → r.Settled t

namespace Context

open Selection

variable {x : Context}

theorem settled_made {l : Leaf} {k : Kind} {e : Extent} {r : Region}
    (h : x.made l k e = .ok r) : r.Settled x.topology :=
  Region.settled_of_complete rfl h

theorem exists_made {l : Leaf} {k : Kind} {e : Extent} (h : x.topology.error? k e = none) :
    ∃ r, x.made l k e = .ok r ∧ r.Settled x.topology ∧ r.kind = k ∧
      r.extent = x.topology.derive k e := by
  obtain ⟨r, hr, hkind, hextent⟩ :=
    Region.exists_complete (r := (Region.empty l.text).reset k e) h
  exact ⟨r, hr, settled_made hr, hkind, hextent⟩

theorem evalLeaf_region {n : String} {r : Region} (hr : x.regions.get? n = some r) :
    x.evalLeaf (.region n) = .ok r :=
  Collection.get_eq_ok_iff.2 hr

theorem evalLeaf_copy {n : String} {r : Region} (hr : x.regions.get? n = some r) :
    x.evalLeaf (.copy n) = r.ensureComplete x.topology := by
  rw [evalLeaf, Collection.get_eq_ok_iff.2 hr]
  rfl

variable (x) in
/-- Where the region of a leaf comes from. -/
inductive Origin : Leaf → Region → Prop where
  | stored {n : String} {r : Region} : x.regions.get? n = some r → Origin (.region n) r
  | copied {n : String} {s r : Region} :
      x.regions.get? n = some s → s.ensureComplete x.topology = .ok r → Origin (.copy n) r
  | made {l : Leaf} {k : Kind} {e : Extent} {r : Region} : x.made l k e = .ok r → Origin l r

theorem origin_of_evalLeaf {l : Leaf} {r : Region} (h : x.evalLeaf l = .ok r) : x.Origin l r := by
  cases l with
  | region n => exact .stored (Collection.get_eq_ok_iff.1 h)
  | copy n =>
    obtain ⟨s, hs, hr⟩ := exists_ok_of_bind h
    exact .copied (Collection.get_eq_ok_iff.1 hs) hr
  | all | verticesOfGroup i => exact .made h
  | surface =>
    rw [evalLeaf] at h
    split at h
    · cases h
    · exact .made h
  | verticesIn p =>
    rw [evalLeaf] at h
    split at h
    · exact .made h
    · cases h
  | verticesInList l | vertices l | cells l | groupCells l | cellsOfGroup l =>
    obtain ⟨s, -, hr⟩ := exists_ok_of_bind h
    exact .made hr
  | verticesBy f | cellsBy f =>
    obtain ⟨s, -, hr⟩ := exists_ok_of_bind h
    obtain ⟨u, -, hr⟩ := exists_ok_of_bind hr
    exact .made hr
  | verticesOfSet n | cellsOfSet n =>
    rw [evalLeaf] at h
    split at h
    · cases h
    · obtain ⟨u, -, hr⟩ := exists_ok_of_bind h
      exact .made hr
  | vertexOfRegion n =>
    obtain ⟨s, -, hr⟩ := exists_ok_of_bind h
    split at hr
    · cases hr
    · exact .made hr

theorem settled_evalLeaf (hx : x.regions.Settled x.topology) {l : Leaf} {r : Region}
    (h : x.evalLeaf l = .ok r) : r.Settled x.topology := by
  cases origin_of_evalLeaf h with
  | stored hr => exact hx _ r hr
  | copied hs hr =>
    have hsettled := hx _ _ hs
    exact Region.settled_of_ensureComplete hsettled.kind (fun _ => hsettled) hr
  | made hr => exact settled_made hr

theorem settled_runFrom (hx : x.regions.Settled x.topology) {s : List Region}
    (hs : ∀ r ∈ s, r.Settled x.topology) {p : Program} {r : Region}
    (h : x.runFrom s p = .ok r) : r.Settled x.topology := by
  induction p generalizing s with
  | nil =>
    by_cases hl : s.length = 1
    · obtain ⟨u, rfl⟩ := List.length_eq_one_iff.1 hl
      cases h
      exact hs _ (List.mem_singleton_self _)
    · rw [runFrom_nil hl] at h
      cases h
  | cons i p ih =>
    cases i with
    | push l =>
      rw [runFrom_push] at h
      obtain ⟨u, hu, hr⟩ := exists_ok_of_bind h
      exact ih (List.forall_mem_cons.2 ⟨settled_evalLeaf hx hu, hs⟩) hr
    | apply o =>
      match s with
      | [] | [_] => rw [runFrom_apply_short (by simp)] at h; cases h
      | b :: a :: s =>
        rw [runFrom_apply] at h
        obtain ⟨u, hu, hr⟩ := exists_ok_of_bind h
        exact ih (List.forall_mem_cons.2 ⟨Region.settled_of_combine hu, fun v hv =>
          hs v (List.mem_cons_of_mem _ (List.mem_cons_of_mem _ hv))⟩) hr

theorem settled_run (hx : x.regions.Settled x.topology) {p : Program} {r : Region}
    (h : x.run p = .ok r) : r.Settled x.topology :=
  settled_runFrom hx (by simp) h

end Context

end Subdomain

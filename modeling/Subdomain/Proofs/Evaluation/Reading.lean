import Subdomain.Domain.Basic
import Subdomain.Mesh.Grid
import Subdomain.Proofs.Definition.Order
import Subdomain.Proofs.Evaluation.Machine

/-!
# What evaluation reads

A program reads the collection of regions only at its references: two collections
that agree there give the same result (`run_congr`), and a program that succeeds
has found all of them (`mem_names_of_run`). So of the defined names the text of a
definition reads only those on which it depends (`run_eq_of_agreeOn`).
-/

namespace Subdomain

/-- Two collections have the same region, or both none, under each of some names. -/
def Collection.AgreeOn (names : List String) (c c' : Collection) : Prop :=
  ∀ n ∈ names, c.get? n = c'.get? n

namespace Context

open Selection

variable {x : Context} {c c' : Collection}

theorem get_congr {n : String} (h : c.get? n = c'.get? n) : c.get n = c'.get n := by
  unfold Collection.get
  rw [h]

theorem evalLeaf_congr {l : Leaf} (h : ∀ n, l.reference? = some n → c.get? n = c'.get? n) :
    Context.evalLeaf { x with regions := c } l = Context.evalLeaf { x with regions := c' } l := by
  cases l with
  | region n => exact get_congr (h n rfl)
  | copy n => rw [evalLeaf, evalLeaf, get_congr (h n rfl)]
  | vertexOfRegion n =>
    rw [evalLeaf, evalLeaf, get_congr (h n rfl)]
    rfl
  | _ => rfl

theorem mem_references {p : Program} {n : String} :
    n ∈ p.references ↔ ∃ i ∈ p, i.reference? = some n := by
  rw [Program.references, mem_firstUses, List.mem_filterMap]

theorem runFrom_congr {p : Program} {s : List Region} (h : c.AgreeOn p.references c') :
    runFrom { x with regions := c } s p = runFrom { x with regions := c' } s p := by
  induction p generalizing s with
  | nil =>
    by_cases hs : s.length = 1
    · obtain ⟨r, rfl⟩ := List.length_eq_one_iff.1 hs
      rfl
    · rw [runFrom_nil hs, runFrom_nil hs]
  | cons i p ih =>
    have hp {s : List Region} := ih (s := s) fun n hn => by
      obtain ⟨j, hj, hjn⟩ := mem_references.1 hn
      exact h n (mem_references.2 ⟨j, List.mem_cons_of_mem _ hj, hjn⟩)
    cases i with
    | push l =>
      rw [runFrom_push, runFrom_push, evalLeaf_congr fun n hn =>
        h n (mem_references.2 ⟨_, List.mem_cons_self, hn⟩)]
      simp only [hp]
    | apply o =>
      match s with
      | [] | [_] => rw [runFrom_apply_short (by simp), runFrom_apply_short (by simp)]
      | b :: a :: s =>
        rw [runFrom_apply, runFrom_apply]
        simp only [hp]

/-- Evaluation reads the regions only at the references of the program. -/
theorem run_congr {p : Program} (h : c.AgreeOn p.references c') :
    run { x with regions := c } p = run { x with regions := c' } p :=
  runFrom_congr h

/-! ## Successful runs -/

theorem mem_names_of_get {n : String} {r : Region} (h : c.get n = .ok r) : n ∈ c.names :=
  NameTable.mem_names_of_get? (Collection.get_eq_ok_iff.1 h)

theorem mem_names_of_evalLeaf {l : Leaf} {r : Region} (h : x.evalLeaf l = .ok r) {n : String}
    (hn : l.reference? = some n) : n ∈ x.regions.names := by
  cases l with
  | region m =>
    cases hn
    exact mem_names_of_get h
  | copy m | vertexOfRegion m =>
    cases hn
    obtain ⟨t, ht, -⟩ := exists_ok_of_bind h
    exact mem_names_of_get ht
  | _ => cases hn

theorem mem_names_of_runFrom {p : Program} {s : List Region} {r : Region}
    (h : x.runFrom s p = .ok r) {n : String} (hn : n ∈ p.references) : n ∈ x.regions.names := by
  obtain ⟨i, hi, hin⟩ := mem_references.1 hn
  clear hn
  induction p generalizing s with
  | nil => cases hi
  | cons j p ih =>
    cases j with
    | push l =>
      rw [runFrom_push] at h
      obtain ⟨t, ht, hrest⟩ := exists_ok_of_bind h
      rcases List.mem_cons.1 hi with rfl | hi
      · exact mem_names_of_evalLeaf ht hin
      · exact ih hrest hi
    | apply o =>
      match s with
      | [] | [_] => rw [runFrom_apply_short (by simp)] at h; cases h
      | b :: a :: s =>
        rw [runFrom_apply] at h
        obtain ⟨t, -, hrest⟩ := exists_ok_of_bind h
        rcases List.mem_cons.1 hi with rfl | hi
        · cases hin
        · exact ih hrest hi

/-- A run succeeds only if every region that the program reads exists. -/
theorem mem_names_of_run {p : Program} {r : Region} (h : x.run p = .ok r) {n : String}
    (hn : n ∈ p.references) : n ∈ x.regions.names :=
  mem_names_of_runFrom h hn

/-! ## Dependencies -/

/-- A definition depends on all defined names that its text reads. -/
theorem mem_needs_of_mem_references {ds : Definitions} {ps : NameTable Program}
    (hps : ds.programs = .ok ps) {n m : String} {p : Program} (hp : ps.get? n = some p)
    (hm : m ∈ p.references) : m ∉ ds.names ∨ m ∈ (ds.dependencies ps).needs n := by
  rw [Definitions.mem_needs_dependencies (Definitions.names_programs hps), hp]
  by_cases hd : m ∈ ds.names
  · exact .inr ⟨hd, hm⟩
  · exact .inl hd

/-- Evaluation reads the regions only at the references of the program: two collections that agree
there give the same region or the same error. For the text of a definition it is enough that they
agree on its dependencies and on all names that are not defined. -/
theorem run_eq_of_agreeOn (x : Context) (c c' : Collection) :
    (∀ p : Program, c.AgreeOn p.references c' →
      run { x with regions := c } p = run { x with regions := c' } p) ∧
    ∀ (ds : Definitions) (ps : NameTable Program), ds.programs = .ok ps →
      ∀ n p, ps.get? n = some p →
        (∀ m, m ∉ ds.names ∨ m ∈ (ds.dependencies ps).needs n → c.get? m = c'.get? m) →
          run { x with regions := c } p = run { x with regions := c' } p := by
  refine ⟨fun p h => run_congr h, fun ds ps hps n p hp h => run_congr fun m hm => ?_⟩
  exact h m (mem_needs_of_mem_references hps hp hm)

/-- A region that a program does not read makes no difference, and neither does one that is defined
next to a text that does not read it. -/
theorem run_eq_of_agreeOn_square :
    let d := Domain.ofMesh "square" (.unitSquare 2 1)
    let left := (d.createRegion .empty true "Left" { selection := "cell 0" }).domain
    let both := (left.createRegion .empty true "Rest" { selection := "cell 1" }).domain
    let copy : Program := [.push (.copy "Left")]
    let ds : Definitions := .ofList
      [("Rest", { selection := "cell 1" }), ("All", { selection := "r.Left +c cell 1" })]
    both.regions.get? "Rest" ≠ left.regions.get? "Rest" ∧
      (d.context both.regions .empty).run copy = (d.context left.regions .empty).run copy ∧
      ∃ ps p, ds.programs = .ok ps ∧ ps.get? "All" = some p ∧
        (d.context both.regions .empty).run p = (d.context left.regions .empty).run p := by
  intro d left both copy ds
  have hagree : ∀ m, m ≠ "Rest" → both.regions.get? m = left.regions.get? m := by
    intro m hrest
    by_cases hleft : m = "Left"
    · rw [hleft]
      decide +kernel
    · have hboth : both.regions.names = ["Left", "Rest"] := by decide +kernel
      have hnames : left.regions.names = ["Left"] := by decide +kernel
      have hnone {c : Collection} (h : m ∉ c.names) : c.get? m = none :=
        NameTable.get?_eq_none_iff.2 h
      rw [hnone (by simp [hboth, hleft, hrest]), hnone (by simp [hnames, hleft])]
  obtain ⟨ps, hps, hneeds⟩ : ∃ ps, ds.programs = .ok ps ∧
      (ds.dependencies ps).needs "All" = [] :=
    exists_ok_of_toOption (f := fun ps => (ds.dependencies ps).needs "All") (by decide +kernel)
  obtain ⟨p, hp⟩ : ∃ p, ps.get? "All" = some p :=
    NameTable.exists_get?_of_mem_names
      (show "All" ∈ ps.names from Definitions.names_programs hps ▸ by decide +kernel)
  obtain ⟨hcopy, hdefined⟩ :=
    run_eq_of_agreeOn (d.context .empty .empty) both.regions left.regions
  refine ⟨by decide +kernel, hcopy copy fun m hm => hagree m ?_,
    ps, p, hps, hp, hdefined ds ps hps "All" p hp fun m hm => hagree m ?_⟩
  · rintro rfl
    revert hm
    decide +kernel
  · rintro rfl
    rw [hneeds] at hm
    exact hm.elim (fun h => h (by decide +kernel)) List.not_mem_nil

end Context

end Subdomain

import Subdomain.Evaluation.Leaf
import Subdomain.Region.Algebra
import Subdomain.Proofs.Outcome
import Subdomain.Proofs.Region.Range

/-!
# The errors of a computation

`Raises P m` says that every error of `m` satisfies `P`. It passes through
sequencing and through lists, so what a leaf or a combination can report is read
off from what its parts can report. Here `P` is `e.IsPlain`: nothing but the stack
machine itself calls an expression malformed, and no error names a region around it
before a domain does.
-/

namespace Subdomain

def Raises {α : Type} (P : RegionError → Prop) (m : Except RegionError α) : Prop :=
  ∀ e, m = .error e → P e

variable {α β : Type} {P : RegionError → Prop}

theorem raises_ok {a : α} : Raises P (.ok a) := by
  intro e h
  cases h

theorem raises_error {e : RegionError} (h : P e) : Raises (α := α) P (.error e) := by
  intro e' h'
  cases h'
  exact h

theorem Raises.bind {m : Except RegionError α} {f : α → Except RegionError β} (hm : Raises P m)
    (hf : ∀ a, m = .ok a → Raises P (f a)) : Raises P (m >>= f) := by
  cases m with
  | error e => exact raises_error (hm e rfl)
  | ok a => exact hf a rfl

theorem raises_mapM {f : α → Except RegionError β} {l : List α} (h : ∀ a ∈ l, Raises P (f a)) :
    Raises P (l.mapM f) := by
  induction l with
  | nil => exact raises_ok
  | cons a l ih =>
    obtain ⟨ha, hl⟩ := List.forall_mem_cons.1 h
    rw [List.mapM_cons]
    exact ha.bind fun _ _ => (ih hl).bind fun _ _ => raises_ok

theorem exists_ok_of_mapM {f : α → Except RegionError β} {l : List α} {bs : List β}
    (h : l.mapM f = .ok bs) {b : β} (hb : b ∈ bs) : ∃ a ∈ l, f a = .ok b := by
  induction l generalizing bs with
  | nil =>
    cases h
    cases hb
  | cons a l ih =>
    rw [List.mapM_cons] at h
    obtain ⟨b', ha, h⟩ := exists_ok_of_bind h
    obtain ⟨bs', hl, h⟩ := exists_ok_of_bind h
    cases h
    rcases List.mem_cons.1 hb with rfl | hb
    · exact ⟨a, List.mem_cons_self, ha⟩
    · obtain ⟨a', ha', hab⟩ := ih hl hb
      exact ⟨a', List.mem_cons_of_mem _ ha', hab⟩

theorem mem_of_mapM {f : α → Except RegionError β} {l : List α} {bs : List β}
    (h : l.mapM f = .ok bs) {a : α} (ha : a ∈ l) {b : β} (hb : f a = .ok b) : b ∈ bs := by
  induction l generalizing bs with
  | nil => cases ha
  | cons a' l ih =>
    rw [List.mapM_cons] at h
    obtain ⟨b', hb', h⟩ := exists_ok_of_bind h
    obtain ⟨bs', hl, h⟩ := exists_ok_of_bind h
    cases h
    rcases List.mem_cons.1 ha with rfl | ha
    · cases hb.symm.trans hb'
      exact List.mem_cons_self
    · exact List.mem_cons_of_mem _ (ih hl ha)

theorem exists_mapM {f : α → Except RegionError β} {l : List α} (h : ∀ a ∈ l, ∃ b, f a = .ok b) :
    ∃ bs, l.mapM f = .ok bs := by
  induction l with
  | nil => exact ⟨[], rfl⟩
  | cons a l ih =>
    obtain ⟨⟨b, hb⟩, hl⟩ := List.forall_mem_cons.1 h
    obtain ⟨bs, hbs⟩ := ih hl
    refine ⟨b :: bs, ?_⟩
    rw [List.mapM_cons, hb, hbs]
    rfl

/-- The first item that fails decides the error. -/
theorem mapM_eq_error {f : α → Except RegionError β} {l₁ l₂ : List α} {a : α} {e : RegionError}
    (h : ∀ b ∈ l₁, ∃ c, f b = .ok c) (ha : f a = .error e) :
    (l₁ ++ a :: l₂).mapM f = .error e := by
  obtain ⟨bs, hbs⟩ := exists_mapM h
  rw [List.mapM_append, hbs, List.mapM_cons, ha]
  rfl

/-- The number of regions that a malformed expression leaves. -/
def RegionError.remaining? : RegionError → Option Nat
  | malformedExpression n => some n
  | _ => none

/-- The error is neither about the shape of a program nor wrapped in the name of a region. -/
def RegionError.IsPlain : RegionError → Prop
  | malformedExpression _ | inRegion .. => False
  | _ => True

/-- The error does not come from the shape of a program. -/
abbrev Formed (m : Except RegionError α) : Prop := Raises (·.remaining? = none) m

abbrev Plain (m : Except RegionError α) : Prop := Raises (·.IsPlain) m

theorem Plain.formed {m : Except RegionError α} (h : Plain m) : Formed m := by
  intro e he
  have hplain := h e he
  cases e <;> first | rfl | exact hplain.elim

/-- A plain error is wrapped in the name of the region in which it arose. -/
theorem RegionError.IsPlain.within {e : RegionError} (h : e.IsPlain) (name : String) :
    e.within name = .inRegion name e := by
  cases e <;> first | rfl | exact h.elim

theorem isPlain_of_error? {t : Topology} {k : Kind} {x : Extent} {e : RegionError}
    (h : t.error? k x = some e) : e.IsPlain := by
  have hindex := Topology.isIndexError_of_error? h
  cases e <;> trivial

namespace Region

theorem plain_complete {t : Topology} {r : Region} : Plain (r.complete t) := by
  unfold complete
  split
  · rename_i e h
    exact raises_error (isPlain_of_error? h)
  · exact raises_ok

theorem plain_ensureComplete {t : Topology} {r : Region} : Plain (r.ensureComplete t) := by
  unfold ensureComplete
  split
  · exact raises_ok
  · exact plain_complete

theorem plain_combine {t : Topology} {o : SetOperator} {a b : Region} :
    Plain (combine t o a b) := by
  unfold combine
  split
  · rename_i e h
    refine raises_error ?_
    unfold combineError? at h
    split at h
    · cases h; trivial
    · split at h
      · cases h; trivial
      · split at h
        · cases h; trivial
        · cases h
  · exact plain_complete

theorem plain_completed {t : Topology} {r : Region} : Plain (r.completed t).toExcept := by
  unfold completed
  split
  · exact raises_ok
  · rename_i e h
    exact raises_error (plain_complete e h)

theorem plain_setKind {t : Topology} {k : Kind} {r : Region} :
    Plain (r.setKind t k).toExcept := by
  unfold setKind
  split
  · exact raises_error trivial
  · split
    · rename_i e h
      exact raises_error (plain_ensureComplete e h)
    · split
      · exact raises_ok
      · exact plain_completed

end Region

theorem Collection.plain_get {c : Collection} {n : String} : Plain (c.get n) := by
  unfold get
  split
  · exact raises_ok
  · exact raises_error trivial

theorem Functions.plain_find {fs : Functions} {n : String} : Plain (fs.find n) := by
  unfold find
  split
  · exact raises_ok
  · exact raises_error trivial

namespace Context

variable {x : Context}

theorem plain_vertices {is : List Int} : Plain (x.vertices is) := by
  refine (raises_mapM fun i _ => ?_).bind fun _ _ => raises_ok
  unfold vertex
  split
  · exact raises_ok
  · exact raises_error trivial

theorem plain_cells {is : List Int} : Plain (x.cells is) := by
  refine (raises_mapM fun i _ => ?_).bind fun _ _ => raises_ok
  unfold cell
  split
  · exact raises_ok
  · exact raises_error trivial

theorem plain_groupCell {p : Int × Int} : Plain (x.groupCell p) := by
  unfold groupCell
  split
  · exact raises_error trivial
  · split
    · exact raises_ok
    · exact raises_error trivial

theorem plain_made {l : Selection.Leaf} {k : Kind} {e : Extent} : Plain (x.made l k e) :=
  Region.plain_complete

theorem plain_evalLeaf {l : Selection.Leaf} : Plain (x.evalLeaf l) := by
  cases l with
  | region n => exact Collection.plain_get
  | copy n => exact Collection.plain_get.bind fun _ _ => Region.plain_ensureComplete
  | all | verticesOfGroup i => exact plain_made
  | surface =>
    rw [evalLeaf]
    split
    · exact raises_error trivial
    · exact plain_made
  | verticesIn p =>
    rw [evalLeaf]
    split
    · exact plain_made
    · exact raises_error trivial
  | verticesInList l | vertices l => exact plain_vertices.bind fun _ _ => plain_made
  | verticesBy f =>
    exact Functions.plain_find.bind fun _ _ => plain_vertices.bind fun _ _ => plain_made
  | cellsBy f =>
    exact Functions.plain_find.bind fun _ _ => plain_cells.bind fun _ _ => plain_made
  | verticesOfSet n =>
    rw [evalLeaf]
    split
    · exact raises_error trivial
    · exact plain_vertices.bind fun _ _ => plain_made
  | cellsOfSet n =>
    rw [evalLeaf]
    split
    · exact raises_error trivial
    · exact plain_cells.bind fun _ _ => plain_made
  | vertexOfRegion n =>
    refine Collection.plain_get.bind fun r _ => ?_
    split
    · exact raises_error trivial
    · exact plain_made
  | cells l => exact plain_cells.bind fun _ _ => plain_made
  | groupCells ps =>
    exact (raises_mapM fun _ _ => plain_groupCell).bind fun _ _ => plain_made
  | cellsOfGroup m =>
    refine Raises.bind ?_ fun _ _ => plain_made
    unfold cellsOfMaterial
    split
    · exact raises_error trivial
    · exact raises_ok

end Context

end Subdomain

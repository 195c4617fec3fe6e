import Mathlib.Data.List.Forall2
import Subdomain.Mesh.Grid
import Subdomain.Proofs.Evaluation.Settled
import Subdomain.Proofs.Mesh.Built
import Subdomain.Proofs.Region.Combination

/-!
# Substitution

A reference to a region may be replaced by a text that selects the same entities:
combination looks at the entities of its operands, not at their names. So stacks of
regions that are pairwise twins stay so, whatever program is run on them, and where
one run fails the other fails with the same error (`runFrom_of_substitutes`).
-/

namespace Subdomain

/-! ## Twins -/

namespace Region

variable {t : Topology} {a a' b b' r s : Region}

/-- Settled regions of the same kind with the same entities; their names may differ. -/
structure Twins (t : Topology) (r s : Region) : Prop where
  left : r.Settled t
  right : s.Settled t
  kind : r.kind = s.kind
  extent : r.extent = s.extent

theorem Settled.twins_self (h : r.Settled t) : Twins t r r := ⟨h, h, rfl, rfl⟩

theorem Twins.groups (h : Twins t r s) : r.groups = s.groups :=
  (h.left.congr h.right h.extent).2.1

theorem Twins.shape (h : Twins t r s) : r.shape = s.shape :=
  (h.left.congr h.right h.extent).2.2

/-- Both give the same error, or twins. -/
inductive Match (t : Topology) : Except RegionError Region → Except RegionError Region → Prop where
  | region {r s : Region} : Twins t r s → Match t (.ok r) (.ok s)
  | error (e : RegionError) : Match t (.error e) (.error e)

theorem match_self {m : Except RegionError Region} (h : ∀ r, m = .ok r → r.Settled t) :
    Match t m m := by
  cases m with
  | error e => exact .error e
  | ok r => exact .region (h r rfl).twins_self

theorem Match.bind {m n : Except RegionError Region} {f g : Region → Except RegionError Region}
    (h : Match t m n) (hfg : ∀ r s, Twins t r s → Match t (f r) (g s)) :
    Match t (m >>= f) (n >>= g) := by
  cases h with
  | region hrs => exact hfg _ _ hrs
  | error e => exact .error e

/-- Combination does not tell twins apart. -/
theorem Twins.combine (ht : t.Sound) (ha : Twins t a a') (hb : Twins t b b') (o : SetOperator) :
    Match t (combine t o a b) (combine t o a' b') := by
  by_cases ho : t.Supports o.target
  · obtain ⟨r, hr, hsettled, hkind, hextent⟩ := exists_combine ht ha.left hb.left ho
    obtain ⟨s, hs, hsettled', hkind', hextent'⟩ := exists_combine ht ha.right hb.right ho
    rw [hr, hs]
    refine .region ⟨hsettled, hsettled', hkind.trans hkind'.symm, ?_⟩
    rw [hextent, hextent', ha.extent, hb.extent]
  · obtain ⟨hk, hf⟩ := Topology.not_supports_iff.1 ho
    rw [combine_of_unsupported hk hf, combine_of_unsupported hk hf]
    exact .error _

end Region

/-! ## Programs -/

namespace Selection

/-- The leaf gives the region `n`, itself or a copy. -/
def Leaf.Gives (n : String) (l : Leaf) : Prop := l = .region n ∨ l = .copy n

/-- The program `p'` is `p` with `q` in the place of any number of the leaves that give the region
`n`. -/
inductive Substitutes (n : String) (q : Program) : (p p' : Program) → Prop where
  | nil : Substitutes n q [] []
  | keep (i : Instr) {p p' : Program} :
      Substitutes n q p p' → Substitutes n q (i :: p) (i :: p')
  | replace {l : Leaf} {p p' : Program} :
      l.Gives n → Substitutes n q p p' → Substitutes n q (.push l :: p) (q ++ p')

namespace Substitutes

variable {n : String} {q : Program}

theorem refl (p : Program) : Substitutes n q p p := by
  induction p with
  | nil => exact .nil
  | cons i p ih => exact .keep i ih

/-- One leaf replaced, wherever it stands. -/
theorem single {l : Leaf} (hl : l.Gives n) (before after : Program) :
    Substitutes n q (before ++ .push l :: after) (before ++ (q ++ after)) := by
  induction before with
  | nil => exact .replace hl (refl after)
  | cons i before ih => exact .keep i ih

end Substitutes

end Selection

namespace Context

open Selection

variable {x : Context}

/-- A reference to a settled region gives this region, and so does a copy: there is nothing to
complete. -/
theorem evalLeaf_of_gives (hx : x.regions.Settled x.topology) {n : String} {r : Region}
    (hr : x.regions.get? n = some r) {l : Leaf} (hl : l.Gives n) : x.evalLeaf l = .ok r := by
  rcases hl with rfl | rfl
  · exact evalLeaf_region hr
  · rw [evalLeaf_copy hr, Region.ensureComplete, (hx n r hr).isComplete, if_pos rfl]

/-- Runs of a program and of what substitution makes of it, on stacks of twins. Of `q` it counts only
that it pushes a twin of the region, whatever stands around it. -/
theorem runFrom_of_substitutes (ht : x.topology.Sound) (hx : x.regions.Settled x.topology)
    {n : String} {r u : Region} (hr : x.regions.get? n = some r)
    (hru : Region.Twins x.topology r u) {q : Program}
    (hq : ∀ s p, x.runFrom s (q ++ p) = x.runFrom (u :: s) p) {p p' : Program}
    (h : Substitutes n q p p') {s s' : List Region}
    (hs : List.Forall₂ (Region.Twins x.topology) s s') :
    Region.Match x.topology (x.runFrom s p) (x.runFrom s' p') := by
  induction h generalizing s s' with
  | nil =>
    by_cases hl : s.length = 1
    · obtain ⟨v, rfl⟩ := List.length_eq_one_iff.1 hl
      obtain ⟨w, _, hvw, hnil, rfl⟩ := List.forall₂_cons_left_iff.1 hs
      obtain rfl := List.forall₂_nil_left_iff.1 hnil
      exact .region hvw
    · rw [runFrom_nil hl, runFrom_nil (hs.length_eq ▸ hl), hs.length_eq]
      exact .error _
  | keep i _ ih =>
    cases i with
    | push l =>
      rw [runFrom_push, runFrom_push]
      refine (Region.match_self fun v hv => settled_evalLeaf hx hv).bind fun v w hvw => ?_
      exact ih (.cons hvw hs)
    | apply o =>
      cases hs with
      | nil => exact .error _
      | cons hb hs =>
        cases hs with
        | nil => exact .error _
        | cons ha hs =>
          rw [runFrom_apply, runFrom_apply]
          exact (ha.combine ht hb o).bind fun v w hvw => ih (.cons hvw hs)
  | replace hl _ ih =>
    rw [runFrom_push, evalLeaf_of_gives hx hr hl, hq]
    exact ih (.cons hru hs)

/-- A text that selects the entities of a region, with the same kind, may take the place of the
region in any program: both fail, and then with the same error, or both give the same entities. -/
theorem run_of_substitutes {x : Context} (hm : x.mesh.Built) (ht : x.topology = .ofMesh x.mesh)
    (hx : x.regions.Settled x.topology) {n : String} {r u : Region}
    (hr : x.regions.get? n = some r) {text : List Char} {q : Program} (hq : parse text = .ok q)
    (hu : x.run q = .ok u) (he : u.sameEntities r = true) (hk : u.kind = r.kind)
    {p p' : Program} (h : Substitutes n q p p') :
    (∃ e, x.run p = .error e ∧ x.run p' = .error e) ∨
      ∃ v w, x.run p = .ok v ∧ x.run p' = .ok w ∧ v.sameEntities w = true ∧
        v.kind = w.kind ∧ v.groups = w.groups ∧ v.shape = w.shape := by
  obtain ⟨b, -, rfl⟩ := parse_eq_ok_iff.1 hq
  have hsound : x.topology.Sound := ht ▸ Topology.sound_ofMesh hm.valid
  have htwins : Region.Twins x.topology r u :=
    ⟨hx n r hr, settled_run hx hu, hk.symm, (of_decide_eq_true he).symm⟩
  have hpush (s : List Region) (p : Program) :
      x.runFrom s (b.program ++ p) = x.runFrom (u :: s) p := by
    rw [runFrom_program, ← run_program, hu]
    rfl
  have hmatch : Region.Match x.topology (x.run p) (x.run p') :=
    runFrom_of_substitutes hsound hx hr htwins hpush h .nil
  generalize x.run p = m at hmatch ⊢
  generalize x.run p' = m' at hmatch ⊢
  cases hmatch with
  | region hvw =>
    exact .inr ⟨_, _, rfl, rfl, decide_eq_true hvw.extent, hvw.kind, hvw.groups, hvw.shape⟩
  | error e => exact .inl ⟨e, rfl, rfl⟩

/-- The left cell of two is what is left of all cells without the right one; one of two references
to it is replaced. -/
theorem run_of_substitutes_square :
    let t := Topology.ofMesh (.unitSquare 2 1)
    let left := ((Region.ofEntities "Left" .cell (.ofList [⟨0, 0⟩])).completed t).region
    let x : Context := ⟨.unitSquare 2 1, t, Collection.empty.insert left, .empty⟩
    let before : Program := [.push .all, .push (.region "Left"), .apply ⟨.subtract, .vertex⟩]
    let after : Program := [.apply ⟨.add, .vertex⟩]
    ∃ q v w, parse "all -c cell 1".toList = .ok q ∧
      x.run (before ++ .push (.copy "Left") :: after) = .ok v ∧
      x.run (before ++ (q ++ after)) = .ok w ∧
      v.sameEntities w = true ∧ v.kind = w.kind ∧ v.groups = w.groups ∧ v.shape = w.shape := by
  intro t left x before after
  have hleft : (Region.ofEntities "Left" .cell (.ofList [⟨0, 0⟩])).complete t = .ok left :=
    Region.completed_eq_ok_iff.1
      (congrArg (Change.mk _) (Option.isNone_iff_eq_none.1 (by decide +kernel)))
  have hx : x.regions.Settled x.topology := by
    intro n r hr
    change (Collection.empty.insert left).get? n = some r at hr
    rw [Collection.get?_insert] at hr
    split at hr
    · obtain rfl := Option.some.inj hr
      exact Region.settled_of_complete rfl hleft
    · cases hr
  have hr : x.regions.get? "Left" = some left := rfl
  obtain ⟨q, hq, hrun⟩ : ∃ q, parse "all -c cell 1".toList = .ok q ∧
      (x.run q).toOption.map (fun u => (u.sameEntities left, u.kind)) = some (true, .cell) :=
    exists_ok_of_toOption
      (f := fun q => (x.run q).toOption.map fun u => (u.sameEntities left, u.kind))
      (by decide +kernel)
  obtain ⟨u, hu, hsame⟩ := exists_ok_of_toOption hrun
  rcases run_of_substitutes (Mesh.built_unitSquare 2 1) rfl hx hr hq hu
    (congrArg Prod.fst hsame) (congrArg Prod.snd hsame)
    (.single (.inr rfl) before after) with ⟨e, he, -⟩ | ⟨v, w, h⟩
  · have hok : (x.run (before ++ .push (.copy "Left") :: after)).toOption.isSome = true := by
      decide +kernel
    rw [he] at hok
    cases hok
  · exact ⟨q, v, w, hq, h⟩

end Context

end Subdomain

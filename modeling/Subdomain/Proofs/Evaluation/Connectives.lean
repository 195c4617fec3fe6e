import Subdomain.Proofs.Evaluation.Settled
import Subdomain.Proofs.Predicate.Joining
import Subdomain.Proofs.Predicate.Selecting
import Subdomain.Proofs.Region.Combination
import Subdomain.Proofs.Selection.Writing

/-!
# Connectives and set operators

The vertices in a conjunction, a disjunction or a negation of predicates are the
intersection, the union or the complement of the vertices in these predicates, by
the operators on vertices. Both ways of writing a selection fail together, as no
operand is passed over either way (`connectives_agree`).
-/

namespace Subdomain

namespace Context

open Selection

/-! ## Regions of vertices -/

/-- A failure unless `D`, and otherwise a settled region of the vertices with `M`. -/
inductive Yields (t : Topology) (D : Prop) (M : Nat → Prop) : Except RegionError Region → Prop where
  | region {r : Region} : D → r.Settled t → r.kind = .vertex → (∀ v, v ∈ r.vertices ↔ M v) →
      Yields t D M (.ok r)
  | failure {e : RegionError} : ¬ D → Yields t D M (.error e)

/-- Both fail, or both give regions with the same entities. -/
def Agree (m n : Except RegionError Region) : Prop :=
  (∃ r s, m = .ok r ∧ n = .ok s ∧ r.sameEntities s = true) ∨ ∃ e f, m = .error e ∧ n = .error f

section

variable {t : Topology} {D D' : Prop} {M M' : Nat → Prop} {m n : Except RegionError Region}

/-- Settled regions of the same vertices have the same entities. -/
theorem Yields.agree (hm : Yields t D M m) (hn : Yields t D' M' n) (hD : D ↔ D')
    (hM : D → ∀ v, M v ↔ M' v) : Agree m n := by
  cases hm with
  | failure hd =>
    cases hn with
    | failure => exact .inr ⟨_, _, rfl, rfl⟩
    | region hd' => exact absurd (hD.2 hd') hd
  | @region r hd hr hkr hvr =>
    cases hn with
    | failure hd' => exact absurd (hD.1 hd) hd'
    | @region s _ hs hks hvs =>
      have hvertices : r.extent.vertices = s.extent.vertices := by
        ext v
        exact (hvr v).trans ((hM hd v).trans (hvs v).symm)
      have hpart : r.extent.part r.kind = s.extent.part r.kind := by
        rw [hkr, Extent.part, Extent.part, hvertices]
      exact .inl ⟨r, s, rfl, rfl,
        decide_eq_true (hr.extent_congr hs (hkr.trans hks.symm) hpart)⟩

theorem Yields.combine (ht : t.Sound) (hm : Yields t D M m) (hn : Yields t D' M' n) (op : SetOp) :
    Yields t (D ∧ D') (fun v => op.Holds (M v) (M' v))
      (do let r ← m; let s ← n; Region.combine t ⟨op, .vertex⟩ r s) := by
  cases hm with
  | failure hd => exact .failure fun h => hd h.1
  | @region r hd hr hkr hvr =>
    cases hn with
    | failure hd' => exact .failure fun h => hd' h.2
    | @region s hd' hs hks hvs =>
      obtain ⟨u, hu, hsettled, hkind, hextent⟩ :=
        Region.exists_combine ht hr hs (o := ⟨op, .vertex⟩) nofun
      show Yields t _ _ (Region.combine t ⟨op, .vertex⟩ r s)
      rw [hu]
      refine .region ⟨hd, hd'⟩ hsettled hkind fun v => ?_
      rw [(Region.combined_of_extent hsettled hkind hextent).vertices rfl, hvr, hvs]

end

variable {x : Context}

theorem yields_made {l : Leaf} {s : IdSet} {D : Prop} {M : Nat → Prop} (hd : D)
    (hM : ∀ v, v ∈ s ↔ M v) (hlt : ∀ v, M v → v < x.topology.vertexCount) :
    Yields x.topology D M (x.made l .vertex { vertices := s }) := by
  have hs : x.topology.error? .vertex { vertices := s } = none :=
    Topology.error?_vertex_eq_none_iff.2 fun v hv => hlt v ((hM v).1 hv)
  obtain ⟨r, hr, hsettled, hkind, hextent⟩ := exists_made hs
  rw [hr]
  refine .region hd hsettled hkind fun v => ?_
  rw [Region.vertices, hextent]
  exact hM v

section

variable (ht : x.topology = .ofMesh x.mesh)
include ht

theorem vertexCount_eq : x.topology.vertexCount = x.mesh.coors.length := by
  rw [ht]
  rfl

theorem yields_all : Yields x.topology True (· < x.mesh.coors.length) (x.evalTree (.leaf .all)) := by
  refine yields_made trivial (fun v => ?_) fun v hv => by rwa [vertexCount_eq ht]
  rw [SortedSet.mem_ofList, List.mem_range]
  rfl

theorem yields_verticesIn (p : Predicate) :
    Yields x.topology (p.expr.Defined x.mesh.dim x.mesh.coors) (p.expr.Selects x.mesh.coors)
      (x.evalTree (.leaf (.verticesIn p))) := by
  rw [evalTree, evalLeaf]
  rcases p.select_spec x.mesh.dim x.mesh.coors with ⟨hd, vs, hvs, hmem⟩ | ⟨hd, f, hf⟩
  · rw [hvs]
    refine yields_made hd (fun v => SortedSet.mem_ofList.trans (hmem v)) ?_
    rintro v ⟨p, hp, -⟩
    rw [vertexCount_eq ht]
    exact (List.getElem?_eq_some_iff.1 hp).1
  · rw [hf]
    exact .failure hd

end

/-! ## Texts -/

section

variable {u v : List Char} {c : Program}

theorem of_verticesIn {l : Leaf} (h : (Predicate.parse u).toOption.map .verticesIn = some l) :
    ∃ p, Predicate.parse u = .ok p ∧ l = .verticesIn p := by
  cases hp : Predicate.parse u with
  | error f =>
    rw [hp] at h
    cases h
  | ok p =>
    rw [hp] at h
    cases h
    exact ⟨p, rfl, rfl⟩

theorem of_parse_verticesIn (hu : IsPredicate u) (h : parse ("vertices in ".toList ++ u) = .ok c) :
    ∃ p, Predicate.parse u = .ok p ∧ c = (Tree.leaf (.verticesIn p)).program := by
  have htext := (leafText_verticesIn hu).term.expr.mono (Nat.zero_le maxDepth)
  obtain ⟨e, he, rfl⟩ := htext.parse_eq_ok_iff.1 h
  obtain ⟨l, hl, rfl⟩ := Option.map_eq_some_iff.1 he
  obtain ⟨p, hp, rfl⟩ := of_verticesIn hl
  exact ⟨p, hp, rfl⟩

theorem of_parse_combine {a b : Option Leaf} {o : SetOperator} (hu : LeafText u a)
    (hv : LeafText v b) (h : parse (u ++ ' ' :: (o.chars ++ ' ' :: v)) = .ok c) :
    ∃ l m, a = some l ∧ b = some m ∧ c = (Tree.combine (.leaf l) o (.leaf m)).program := by
  have htext := (hu.term.expr.combine o hv.term).mono (Nat.zero_le maxDepth)
  obtain ⟨e, he, rfl⟩ := htext.parse_eq_ok_iff.1 h
  obtain ⟨_, hl, he⟩ := Option.bind_eq_some_iff.1 he
  obtain ⟨l, rfl, rfl⟩ := Option.map_eq_some_iff.1 hl
  obtain ⟨_, hm, rfl⟩ := Option.map_eq_some_iff.1 he
  obtain ⟨m, rfl, rfl⟩ := Option.map_eq_some_iff.1 hm
  exact ⟨l, m, rfl, rfl, rfl⟩

end

def inParens (P : List Char) : List Char := '(' :: (P ++ [')'])

/-- Two texts that are read select the same entities, or both fail. -/
def Equates (x : Context) (s t : List Char) : Prop :=
  ∀ a b, parse s = .ok a → parse t = .ok b → Agree (x.run a) (x.run b)

section

variable {P Q : List Char} {p q : Predicate}

theorem isPredicate_inParens (hP : Predicate.parse P = .ok p) : IsPredicate (inParens P) :=
  (isClause_parens hP).isPredicate Lexical.solid_parens

theorem isPredicate_not (hP : Predicate.parse P = .ok p) : IsPredicate ('~' :: inParens P) :=
  (isClause_not_parens hP).isPredicate (Lexical.solid_parens.cons (by decide) (by simp))

theorem isPredicate_join (hP : Predicate.parse P = .ok p) (hQ : Predicate.parse Q = .ok q)
    {c : Char} {k : Word} (hc : Joins c k) :
    IsPredicate (inParens P ++ ' ' :: c :: ' ' :: inParens Q) := by
  refine (isClause_parens hP).join (isClause_parens hQ) hc ?_
  exact Lexical.solid_parens.around Lexical.solid_parens (by simp) (by simp) [' ', c, ' ']

variable {x : Context} (hm : x.mesh.Built) (ht : x.topology = .ofMesh x.mesh)
include hm ht

/-- A sign between two predicates is an operator on their vertices if it is one on conditions. -/
theorem equates_join (hP : Predicate.parse P = .ok p) (hQ : Predicate.parse Q = .ok q) {c : Char}
    {k : Word} (hc : Joins c k) {o : SetOp} {f : Predicate.Expr → Predicate.Expr → Predicate.Expr}
    (hexpr : ∀ r, Predicate.parse (inParens P ++ ' ' :: c :: ' ' :: inParens Q) = .ok r →
      r.expr = f p.expr q.expr)
    (hdefined : ∀ {dim coors}, (f p.expr q.expr).Defined dim coors ↔
      p.expr.Defined dim coors ∧ q.expr.Defined dim coors)
    (hselects : ∀ {dim coors v}, p.expr.Defined dim coors → q.expr.Defined dim coors →
      ((f p.expr q.expr).Selects coors v ↔
        o.Holds (p.expr.Selects coors v) (q.expr.Selects coors v))) :
    x.Equates ("vertices in ".toList ++ (inParens P ++ ' ' :: c :: ' ' :: inParens Q))
      ("vertices in ".toList ++ inParens P ++ ' ' :: (SetOperator.chars ⟨o, .vertex⟩ ++
        ' ' :: ("vertices in ".toList ++ inParens Q))) := by
  intro a b ha hb
  obtain ⟨r, hr, rfl⟩ := of_parse_verticesIn (isPredicate_join hP hQ hc) ha
  obtain ⟨l, m, hl, hm', rfl⟩ := of_parse_combine
    (leafText_verticesIn (isPredicate_inParens hP))
    (leafText_verticesIn (isPredicate_inParens hQ)) hb
  obtain ⟨p', hp', rfl⟩ := of_verticesIn hl
  obtain ⟨q', hq', rfl⟩ := of_verticesIn hm'
  have hsound : x.topology.Sound := ht ▸ Topology.sound_ofMesh hm.valid
  have hleft := yields_verticesIn ht r
  have hright := (yields_verticesIn ht p').combine hsound (yields_verticesIn ht q') o
  rw [hexpr r hr] at hleft
  rw [Predicate.expr_parens hP hp', Predicate.expr_parens hQ hq'] at hright
  rw [run_program, run_program]
  exact hleft.agree hright hdefined fun hd v =>
    hselects (hdefined.1 hd).1 (hdefined.1 hd).2

theorem equates_not (hP : Predicate.parse P = .ok p) :
    x.Equates ("vertices in ".toList ++ ('~' :: inParens P))
      ("all".toList ++ ' ' :: (SetOperator.chars ⟨.subtract, .vertex⟩ ++
        ' ' :: ("vertices in ".toList ++ inParens P))) := by
  intro a b ha hb
  obtain ⟨r, hr, rfl⟩ := of_parse_verticesIn (isPredicate_not hP) ha
  have hall : LeafText "all".toList (some .all) := Leaf.Sound.leafText (l := .all) trivial
  obtain ⟨_, m, ⟨rfl⟩, hm', rfl⟩ := of_parse_combine hall
    (leafText_verticesIn (isPredicate_inParens hP)) hb
  obtain ⟨p', hp', rfl⟩ := of_verticesIn hm'
  have hsound : x.topology.Sound := ht ▸ Topology.sound_ofMesh hm.valid
  have hleft := yields_verticesIn ht r
  have hright := (yields_all ht).combine hsound (yields_verticesIn ht p') .subtract
  rw [Predicate.expr_compl hP hr] at hleft
  rw [Predicate.expr_parens hP hp'] at hright
  rw [run_program, run_program]
  refine hleft.agree hright ?_ fun hd v => ?_
  · rw [Predicate.defined_compl_iff, true_and]
  · exact Predicate.selects_compl_iff (Predicate.defined_compl_iff.1 hd)

end

/-- The connectives of predicates are the operators on sets of vertices: written with either, a
selection gives the same entities, or fails. -/
theorem connectives_agree {x : Context} (hm : x.mesh.Built) (ht : x.topology = .ofMesh x.mesh)
    {P Q : List Char} {p q : Predicate} (hP : Predicate.ofText P = .ok p)
    (hQ : Predicate.ofText Q = .ok q) :
    x.Equates ("vertices in ".toList ++ inParens P ++ " & ".toList ++ inParens Q)
      ("vertices in ".toList ++ inParens P ++ " *v vertices in ".toList ++ inParens Q) ∧
    x.Equates ("vertices in ".toList ++ inParens P ++ " | ".toList ++ inParens Q)
      ("vertices in ".toList ++ inParens P ++ " +v vertices in ".toList ++ inParens Q) ∧
    x.Equates ("vertices in ~".toList ++ inParens P)
      ("all -v vertices in ".toList ++ inParens P) := by
  rw [Predicate.ofText_eq_ok_iff] at hP hQ
  refine ⟨?_, ?_, equates_not hm ht hP⟩
  · have h := equates_join hm ht hP hQ .amp (o := .intersect)
      (fun r => Predicate.expr_conj hP hQ) Predicate.defined_conj_iff
      fun _ _ => Predicate.selects_conj_iff
    simpa [SetOperator.chars, SetOp.sign, Kind.code] using h
  · have h := equates_join hm ht hP hQ .pipe (o := .add)
      (fun r => Predicate.expr_disj hP hQ) Predicate.defined_disj_iff
      Predicate.selects_disj_iff
    simpa [SetOperator.chars, SetOp.sign, Kind.code] using h

/-- Both texts are read, and select the same of the eight vertices of the cube. -/
theorem connectives_agree_cube :
    let x : Context := ⟨.unitCube 1, .ofMesh (.unitCube 1), .empty, .empty⟩
    ∃ a b, parse "vertices in (x<0.5) & (not -y>z or False)".toList = .ok a ∧
      parse "vertices in (x<0.5) *v vertices in (not -y>z or False)".toList = .ok b ∧
      Agree (x.run a) (x.run b) := by
  intro x
  obtain ⟨p, hp⟩ : ∃ p, Predicate.ofText "x<0.5".toList = .ok p :=
    exists_ok_of_isSome (by decide +kernel)
  obtain ⟨q, hq⟩ : ∃ q, Predicate.ofText "not -y>z or False".toList = .ok q :=
    exists_ok_of_isSome (by decide +kernel)
  obtain ⟨a, ha⟩ : ∃ a, parse "vertices in (x<0.5) & (not -y>z or False)".toList = .ok a :=
    exists_ok_of_isSome (by decide +kernel)
  obtain ⟨b, hb⟩ :
      ∃ b, parse "vertices in (x<0.5) *v vertices in (not -y>z or False)".toList = .ok b :=
    exists_ok_of_isSome (by decide +kernel)
  exact ⟨a, b, ha, hb, (connectives_agree (x := x) (Mesh.built_unitCube 1) rfl hp hq).1 a b ha hb⟩

end Context

end Subdomain

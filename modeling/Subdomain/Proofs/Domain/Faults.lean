import Subdomain.Proofs.Domain.Calls
import Subdomain.Proofs.Domain.Series
import Subdomain.Proofs.Evaluation.Faults

/-!
# Faults of calls

A call that fails is refused before it makes anything, or fails in the making of one
region, which its error names (`error_cases`). There it fails at a leaf, with one of the
leaf's faults, or on faces that the domain does not have (`make_eq_error`); no index that
evaluation itself comes up with is ever refused. The regions that a pass reads have all
been made before, so it does not miss any (`contained_after`).
-/

namespace Subdomain

/-- A region to make, from a parsed definition and next to some regions. -/
structure Making where
  functions : Functions
  regions : Collection
  name : String
  definition : Definition
  program : Selection.Program

/-- What a call can report before it makes anything. -/
def RegionError.IsRefusal : RegionError → Prop
  | syntaxError _ | duplicateRegion _ | undefinedParents _ | dependencyCycle _ => True
  | _ => False

/-- What a call can report only from a leaf, if at all. -/
def RegionError.IsInner : RegionError → Prop
  | malformedExpression _ | invalidEntityIndex .. | invalidGroupIndex .. | missingEntities .. => True
  | _ => False

theorem RegionError.IsPlain.root {e : RegionError} (h : e.IsPlain) : e.root = e := by
  cases e <;> first | rfl | exact h.elim

theorem RegionError.IsRefusal.isPlain {e : RegionError} (h : e.IsRefusal) : e.IsPlain := by
  cases e <;> trivial

theorem RegionError.IsRefusal.not_isInner {e : RegionError} (h : e.IsRefusal) : ¬ e.IsInner := by
  cases e <;> first | exact id | exact h.elim

theorem Change.toExcept_eq_error_iff {c : Change} {e : RegionError} :
    c.toExcept = .error e ↔ c.error? = some e := by
  obtain ⟨s, _ | e'⟩ := c <;> simp [toExcept]

namespace Definitions

variable {ds : Definitions} {c : Collection} {o : PassOptions} {e : RegionError}

theorem parseEntries_eq_error {es : List (String × Definition)} (h : parseEntries es = .error e) :
    e.root.IsRefusal := by
  induction es with
  | nil => cases h
  | cons entry es ih =>
    rw [parseEntries] at h
    split at h
    · cases h
      trivial
    · cases hes : parseEntries es with
      | error e' =>
        rw [hes] at h
        cases h
        exact ih hes
      | ok ps =>
        rw [hes] at h
        cases h

theorem plan_eq_error (h : ds.plan c o = .error e) : e.root.IsRefusal := by
  unfold plan programs at h
  split at h
  · rename_i e' hparse
    cases h
    exact parseEntries_eq_error hparse
  · simp only [bind, Except.bind] at h
    split at h
    · cases h
      trivial
    · split at h
      · cases h
        trivial
      · cases h

end Definitions

namespace Domain

variable {d : Domain} {call : Call} {fs : Functions} {ds : Definitions} {o : PassOptions}
  {plan : Plan} {c : Collection} {b : Making} {e cause : RegionError}

def make (d : Domain) (b : Making) : Except RegionError Region :=
  d.build b.regions b.functions b.name b.definition b.program

/-- The context in which a region is made. -/
def site (d : Domain) (b : Making) : Context := d.context b.regions b.functions

/-- A call comes to make a region; nothing has failed until then. -/
inductive Makes (d : Domain) : Call → Making → Prop where
  | single {fs : Functions} {checkParent : Bool} {name : String} {definition : Definition}
      {p : Selection.Program} :
      name ∉ d.regions.names → Selection.parse definition.selection.toList = .ok p →
      (checkParent = true → d.missing? definition.parent p = none) →
      Makes d (.createRegion fs checkParent name definition) ⟨fs, d.regions, name, definition, p⟩
  | pass {fs : Functions} {ds : Definitions} {o : PassOptions} {plan : Plan}
      {front back : List String} {name : String} {definition : Definition}
      {p : Selection.Program} :
      ds.plan (d.existing o) o = .ok plan → plan.order = front ++ name :: back →
      (d.buildAll fs ds plan front (d.existing o)).error? = none →
      ds.get? name = some definition → plan.programs.get? name = some p →
      Makes d (.createRegions fs ds o)
        ⟨fs, (d.buildAll fs ds plan front (d.existing o)).regions, name, definition, p⟩

/-! ## What a region is made from -/

theorem Makes.parse (h : d.Makes call b) :
    Selection.parse b.definition.selection.toList = .ok b.program := by
  cases h with
  | single _ hp _ => exact hp
  | pass hplan _ _ hd hp =>
    obtain ⟨q, hq, hqp⟩ := (Definitions.plan_eq_ok hplan).programs _ _ hd
    cases hp.symm.trans hqp
    exact hq

theorem Makes.settled (h : d.Makes call b) (hd : d.Valid) :
    (d.site b).regions.Settled d.topology := by
  cases h with
  | single => exact hd.converted.settled
  | @pass _ _ o _ _ _ _ _ _ _ _ herr =>
    have hold : (d.existing o).Converted d.topology := (valid_existing hd o).converted
    exact (converted_buildAll hold herr).settled

/-- A pass makes a region behind all that its text reads. -/
theorem Makes.mem_names (h : d.Makes (.createRegions fs ds o) b) {n : String}
    (hn : n ∈ b.program.references) : n ∈ b.regions.names := by
  cases h with
  | @pass _ _ _ plan front back name definition p hplan hsplit herr hd hp =>
    have sound := Definitions.plan_eq_ok hplan
    have hnodup : front.Nodup := by
      have hnodup := sound.nodup
      rw [hsplit] at hnodup
      exact (List.nodup_append.1 hnodup).1
    refine (passed_buildAll hnodup herr).mem_names ?_
    refine (sound.known name p hp n hn).imp_left fun hdefined => ?_
    exact sound.ordered front name back hsplit n (by simpa [hp]) (sound.perm.mem_iff.2 hdefined)

/-! ## Where a call fails -/

theorem buildAll_eq_error {names : List String}
    (hdefined : ∀ n ∈ names, ∃ definition p, ds.get? n = some definition ∧
      plan.programs.get? n = some p)
    (h : (d.buildAll fs ds plan names c).error? = some e) :
    ∃ front name back definition p cause, names = front ++ name :: back ∧
      (d.buildAll fs ds plan front c).error? = none ∧ ds.get? name = some definition ∧
      plan.programs.get? name = some p ∧
      d.build (d.buildAll fs ds plan front c).regions fs name definition p = .error cause ∧
      e = cause.within name := by
  induction names generalizing c with
  | nil => cases h
  | cons name names ih =>
    obtain ⟨⟨definition, p, hd, hp⟩, hdefined⟩ := List.forall_mem_cons.1 hdefined
    rw [buildAll, hd, hp] at h
    simp only at h
    cases hb : d.build c fs name definition p with
    | error cause =>
      rw [hb] at h
      cases h
      exact ⟨[], name, names, definition, p, cause, rfl, rfl, hd, hp, hb, rfl⟩
    | ok r =>
      rw [hb] at h
      dsimp only [Collection.snd_replace] at h
      obtain ⟨front, n, back, definition', p', cause, hsplit, hnone, hd', hp', hb', he⟩ :=
        ih hdefined h
      have hstep : (d.buildAll fs ds plan (name :: front) c).error? =
            (d.buildAll fs ds plan front (c.insert r)).error? ∧
          (d.buildAll fs ds plan (name :: front) c).regions =
            (d.buildAll fs ds plan front (c.insert r)).regions := by
        rw [buildAll, hd, hp]
        simp only [hb, Collection.snd_replace, and_self]
      refine ⟨name :: front, n, back, definition', p', cause, by rw [hsplit]; rfl, ?_, hd', hp',
        ?_, he⟩
      · rw [hstep.1, hnone]
      · rw [hstep.2, hb']

theorem single_eq_error {checkParent : Bool} {name : String} {definition : Definition}
    (h : d.single fs checkParent name definition = .error e) :
    e.IsRefusal ∨ (∃ n, e = .regionNotFound n) ∨
    ∃ b, d.Makes (.createRegion fs checkParent name definition) b ∧ b.name = name ∧
      d.make b = .error e := by
  unfold single at h
  cases hn : d.regions.contains name with
  | true =>
    rw [hn] at h
    cases h
    exact .inl trivial
  | false =>
    simp only [hn, Bool.false_eq_true, if_false] at h
    split at h
    · cases h
      exact .inl trivial
    · rename_i p hp
      split at h
      · cases h
        exact .inr (.inl ⟨_, rfl⟩)
      · rename_i hm
        have hnew : name ∉ d.regions.names := by
          rw [← Collection.contains_iff, hn]
          exact Bool.false_ne_true
        exact .inr (.inr ⟨_, .single hnew hp fun hc => by simpa [hc] using hm, rfl, h⟩)

theorem plain_make (h : d.Makes call b) : Plain (d.make b) := plain_build h.parse

theorem createRegion_cases_error {checkParent : Bool} {name : String} {definition : Definition}
    (h : (d.createRegion fs checkParent name definition).result = .error e) :
    e.root.IsRefusal ∨ (∃ n, e.root = .regionNotFound n) ∨
    ∃ b cause, d.Makes (.createRegion fs checkParent name definition) b ∧
      d.make b = .error cause ∧ e = .inRegion b.name cause := by
  cases hs : d.single fs checkParent name definition with
  | error cause =>
    rw [createRegion_of_error hs] at h
    obtain rfl := Except.error.inj h
    obtain hrefused | ⟨n, rfl⟩ | ⟨b, hb, rfl, hmake⟩ := single_eq_error hs
    · rw [hrefused.isPlain.within]
      exact .inl (hrefused.isPlain.root.symm ▸ hrefused)
    · exact .inr (.inl ⟨n, rfl⟩)
    · rw [(plain_make hb cause hmake).within]
      exact .inr (.inr ⟨b, cause, hb, hmake, rfl⟩)
  | ok r =>
    rw [createRegion_of_single hs] at h
    split at h
    · obtain rfl := Except.error.inj h
      exact .inl trivial
    · cases h

theorem createRegions_cases_error (h : (d.createRegions fs ds o).result = .error e) :
    e.root.IsRefusal ∨ ∃ b cause, d.Makes (.createRegions fs ds o) b ∧
      d.make b = .error cause ∧ e = .inRegion b.name cause := by
  cases hplan : ds.plan (d.existing o) o with
  | error cause =>
    unfold createRegions at h
    rw [← existing] at h
    simp only [hplan] at h
    obtain rfl := Except.error.inj h
    exact .inl (Definitions.plan_eq_error hplan)
  | ok plan =>
    have sound := Definitions.plan_eq_ok hplan
    have hdefined : ∀ n ∈ plan.order, ∃ definition p, ds.get? n = some definition ∧
        plan.programs.get? n = some p := by
      intro n hn
      obtain ⟨definition, hd⟩ := NameTable.exists_get?_of_mem_names (sound.perm.mem_iff.1 hn)
      obtain ⟨p, -, hp⟩ := sound.programs n definition hd
      exact ⟨definition, p, hd, hp⟩
    cases herr : (d.buildAll fs ds plan plan.order (d.existing o)).error? with
    | none => cases (createRegions_of_plan hplan herr).symm.trans h
    | some cause =>
      obtain rfl := Except.error.inj ((createRegions_of_failed hplan herr).symm.trans h)
      obtain ⟨front, name, back, definition, p, cause, hsplit, hnone, hd, hp, hb, rfl⟩ :=
        buildAll_eq_error hdefined herr
      have hmakes := Makes.pass hplan hsplit hnone hd hp
      rw [(plain_make hmakes cause hb).within]
      exact .inr ⟨_, cause, hmakes, hb, rfl⟩

/-- A call is refused, or fails in the making of a region. Only before a single region is made is
anything looked up. -/
theorem error_cases (h : call.error? d = some e) :
    e.root.IsRefusal ∨
    ((∃ n, e.root = .regionNotFound n) ∧ ∀ fs ds o, call ≠ .createRegions fs ds o) ∨
    ∃ b cause, d.Makes call b ∧ d.make b = .error cause ∧ e = .inRegion b.name cause := by
  cases call with
  | reset => cases h
  | createRegion fs checkParent name definition =>
    rw [Call.error?] at h
    split at h
    · cases h
    · rename_i e' he
      cases h
      refine (createRegion_cases_error he).imp_right (Or.imp_left fun hn => ⟨hn, ?_⟩)
      intro _ _ _ hcall
      cases hcall
  | createRegions fs ds o =>
    rw [Call.error?] at h
    split at h
    · cases h
    · rename_i e' he
      cases h
      exact (createRegions_cases_error he).imp_right .inr

/-! ## Where a region fails -/

/-- In the making of a region the call comes to a leaf, and what the leaf reports is the error of
the call. -/
structure FailsAt (d : Domain) (call : Call) (e : RegionError) (b : Making) (l : Selection.Leaf) :
    Prop where
  makes : d.Makes call b
  arrives : ∃ s, (d.site b).Arrives [] b.program (.push l) s
  error : (d.site b).evalLeaf l = .error e.root
  told : e = .inRegion b.name e.root

section

variable (hm : d.mesh.Built) (hd : d.Valid) (hb : d.Makes call b)
include hm hd hb

theorem error_of_combine {o : SetOperator} {r t : Region} {s : List Region}
    (ha : (d.site b).Arrives [] b.program (.apply o) (t :: r :: s))
    (h : Region.combine d.topology o r t = .error e) :
    o.target = .face ∧ d.topology.hasFaces = false ∧ e = .unsupported o.text .faces := by
  have hsound : d.topology.Sound := d.topology_eq ▸ Topology.sound_ofMesh hm.valid
  have hs := Context.settled_arrives (x := d.site b) (hb.settled hd) (by simp) ha
  exact Region.combine_eq_error hsound (hs r (by simp)) (hs t (by simp)) h

theorem error_of_setKind {r : Region} (hr : (d.site b).run b.program = .ok r) {name : String}
    {definition : Definition} (h : ((((r.setName name).setDefinition
      definition.selection).setParent definition.parent).setKind d.topology
        definition.kind).error? = some e) :
    definition.kind = .face ∧ d.topology.hasFaces = false ∧
      e = .unsupported definition.kind.name .faces := by
  have hsound : d.topology.Sound := d.topology_eq ▸ Topology.sound_ofMesh hm.valid
  have hset : r.Settled d.topology := Context.settled_run (x := d.site b) (hb.settled hd) hr
  exact Region.setKind_eq_error hsound (hset.relabel ..) h

/-- The making of a region fails at a leaf, with one of its faults, or on faces. -/
theorem make_eq_error (h : d.make b = .error cause) :
    (∃ l s, (d.site b).Arrives [] b.program (.push l) s ∧ (d.site b).evalLeaf l = .error cause ∧
      (d.site b).Fault l cause) ∨
    ∃ token, cause = .unsupported token .faces := by
  have hplain : cause.IsPlain := plain_make hb cause h
  unfold make build at h
  rw [← site] at h
  cases hrun : (d.site b).run b.program with
  | error e =>
    rw [hrun] at h
    obtain rfl := Except.error.inj h
    cases Context.runFrom_eq_error hrun with
    | malformed he =>
      rw [he] at hplain
      exact hplain.elim
    | leaf ha hl =>
      have hfault := Context.fault_evalLeaf d.topology_eq hm.valid (hb.settled hd) e hl
      exact .inl ⟨_, _, ha, hl, hfault⟩
    | operator ha hc => exact .inr ⟨_, (error_of_combine hm hd hb ha hc).2.2⟩
  | ok r =>
    rw [hrun] at h
    have herror := Change.toExcept_eq_error_iff.1 h
    exact .inr ⟨_, (error_of_setKind hm hd hb hrun herror).2.2⟩

end

/-! ## What an error tells -/

section

variable (hm : d.mesh.Built) (hd : d.Valid) (h : call.error? d = some e)
include hm hd h

theorem root_cases :
    e.root.IsRefusal ∨
    ((∃ n, e.root = .regionNotFound n) ∧ ∀ fs ds o, call ≠ .createRegions fs ds o) ∨
    (∃ token, e.root = .unsupported token .faces) ∨
    ∃ b l, d.FailsAt call e b l ∧ (d.site b).Fault l e.root := by
  refine (error_cases h).imp_right (Or.imp_right ?_)
  rintro ⟨b, cause, hb, hmake, rfl⟩
  have hroot : (RegionError.inRegion b.name cause).root = cause := (plain_make hb cause hmake).root
  obtain ⟨l, s, ha, hl, hfault⟩ | ⟨token, rfl⟩ := make_eq_error hm hd hb hmake
  · refine .inr ⟨b, l, ⟨hb, ⟨s, ha⟩, ?_, ?_⟩, ?_⟩
    · rw [hroot, hl]
    · rw [hroot]
    · rw [hroot]
      exact hfault
  · exact .inl ⟨token, hroot⟩

theorem failsAt_of_isInner (hinner : e.root.IsInner) :
    ∃ b l, d.FailsAt call e b l ∧ (d.site b).Fault l e.root := by
  obtain hrefused | ⟨⟨n, hlost⟩, -⟩ | ⟨token, hfaces⟩ | hfails := root_cases hm hd h
  · exact absurd hinner hrefused.not_isInner
  · rw [hlost] at hinner
    exact hinner.elim
  · rw [hfaces] at hinner
    exact hinner.elim
  · exact hfails

theorem root_ne_malformed (n : Nat) : e.root ≠ .malformedExpression n := by
  intro hroot
  obtain ⟨b, l, -, hfault⟩ := failsAt_of_isInner hm hd h (hroot ▸ trivial)
  rw [hroot] at hfault
  cases hfault

theorem root_ne_entityIndex (k : Kind) (ig i n : Nat) : e.root ≠ .invalidEntityIndex k ig i n := by
  intro hroot
  obtain ⟨b, l, -, hfault⟩ := failsAt_of_isInner hm hd h (hroot ▸ trivial)
  rw [hroot] at hfault
  cases hfault

theorem failsAt_of_groupIndex {i : Int} {n : Nat} (hroot : e.root = .invalidGroupIndex i n) :
    ∃ b ps j, d.FailsAt call e b (.groupCells ps) ∧ (i, j) ∈ ps ∧
      ¬ (0 ≤ i ∧ i < d.topology.groupCount) := by
  obtain ⟨b, l, hfails, hfault⟩ := failsAt_of_isInner hm hd h (hroot ▸ trivial)
  rw [hroot] at hfault
  cases hfault with
  | groupIndex hmem hout => exact ⟨b, _, _, hfails, hmem, hout⟩

theorem failsAt_of_missing {n : String} {k : Kind} (hroot : e.root = .missingEntities n k) :
    k = .vertex ∧ ∃ b r, d.FailsAt call e b (.vertexOfRegion n) ∧ b.regions.get? n = some r ∧
      r.vertices = ∅ := by
  obtain ⟨b, l, hfails, hfault⟩ := failsAt_of_isInner hm hd h (hroot ▸ trivial)
  rw [hroot] at hfault
  cases hfault with
  | noVertices hr hempty => exact ⟨rfl, b, _, hfails, hr, hempty⟩

/-- A pass has made all that its texts read. -/
theorem root_ne_regionNotFound (hcall : call = .createRegions fs ds o) (n : String) :
    e.root ≠ .regionNotFound n := by
  intro hroot
  obtain hrefused | ⟨-, hsingle⟩ | ⟨_, hfaces⟩ | ⟨b, l, hfails, hfault⟩ := root_cases hm hd h
  · rw [hroot] at hrefused
    exact hrefused
  · exact hsingle fs ds o hcall
  · cases hroot.symm.trans hfaces
  · rw [hroot] at hfault
    cases hfault with
    | noRegion hl hlost =>
      obtain ⟨s, ha⟩ := hfails.arrives
      subst hcall
      exact hlost (hfails.makes.mem_names (Context.mem_references.2 ⟨_, ha.mem, hl⟩))

end

/-- What an error of a call tells, and where the making of its regions can fail. -/
structure Contained (d : Domain) (call : Call) : Prop where
  internal : ∀ e, call.error? d = some e → (∀ n, e.root ≠ .malformedExpression n) ∧
    ∀ k ig i n, e.root ≠ .invalidEntityIndex k ig i n
  groupIndex : ∀ e, call.error? d = some e → ∀ i n, e.root = .invalidGroupIndex i n →
    ∃ b ps j, d.FailsAt call e b (.groupCells ps) ∧ (i, j) ∈ ps ∧
      ¬ (0 ≤ i ∧ i < d.topology.groupCount)
  missing : ∀ e, call.error? d = some e → ∀ n k, e.root = .missingEntities n k →
    k = .vertex ∧ ∃ b r, d.FailsAt call e b (.vertexOfRegion n) ∧ b.regions.get? n = some r ∧
      r.vertices = ∅
  combination : ∀ b, d.Makes call b → ∀ o r t s,
    (d.site b).Arrives [] b.program (.apply o) (t :: r :: s) →
      ∀ e, Region.combine d.topology o r t = .error e →
        o.target = .face ∧ d.topology.hasFaces = false ∧ e = .unsupported o.text .faces
  conversion : ∀ b, d.Makes call b → ∀ r, (d.site b).run b.program = .ok r →
    ∀ e, ((((r.setName b.name).setDefinition b.definition.selection).setParent
      b.definition.parent).setKind d.topology b.definition.kind).error? = some e →
        b.definition.kind = .face ∧ d.topology.hasFaces = false ∧
          e = .unsupported b.definition.kind.name .faces
  found : ∀ e, call.error? d = some e → ∀ fs ds o, call = .createRegions fs ds o →
    ∀ n, e.root ≠ .regionNotFound n

/-- Whatever was called before on a domain over a built mesh, no call reports what only a mistake of
the evaluation itself could bring about. -/
theorem contained_after (name : String) {m : Mesh} (hm : m.Built) (calls : List Call)
    (call : Call) : ((ofMesh name m).after calls).Contained call := by
  have hbuilt : ((ofMesh name m).after calls).mesh.Built := by
    rw [mesh_after]
    exact hm
  have hd : ((ofMesh name m).after calls).Valid :=
    valid_after ⟨Collection.converted_empty, Collection.closed_empty⟩ calls
  exact
    { internal := fun e h => ⟨root_ne_malformed hbuilt hd h, root_ne_entityIndex hbuilt hd h⟩
      groupIndex := fun e h i n => failsAt_of_groupIndex hbuilt hd h
      missing := fun e h n k => failsAt_of_missing hbuilt hd h
      combination := fun b hb o r t s ha e => error_of_combine hbuilt hd hb ha
      conversion := fun b hb r hr e => error_of_setKind hbuilt hd hb hr
      found := fun e h fs ds o hcall => root_ne_regionNotFound hbuilt hd h hcall }

/-- A pass that asks for a vertex of a region without any. -/
theorem contained_after_square :
    let calls : List Call := [.createRegion .empty true "None" { selection := "cell 0 -c cell 0" }]
    let call : Call := .createRegions .empty
      (.ofList [("All", { selection := "all" }), ("Dot", { selection := "r.All *v vertex in r.None" })])
      { fresh := false }
    let d := (ofMesh "square" (.unitSquare 2 1)).after calls
    let e : RegionError := .inRegion "Dot" (.missingEntities "None" .vertex)
    call.error? d = some e ∧ ∃ b r, d.FailsAt call e b (.vertexOfRegion "None") ∧
      b.regions.get? "None" = some r ∧ r.vertices = ∅ := by
  intro calls call d e
  have he : call.error? d = some e := by decide +kernel
  exact ⟨he, ((contained_after "square" (Mesh.built_unitSquare 2 1) calls call).missing e he
    "None" .vertex rfl).2⟩

end Domain

end Subdomain

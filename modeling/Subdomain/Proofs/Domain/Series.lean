import Subdomain.Proofs.Domain.Declaration

/-!
# One by one

A pass makes its regions in a collection of its own, which replaces the regions of the
domain at the end. Creating the same regions one by one, in the order of the plan, adds
each to the domain at once, under a name that has to be new. Step by step both make the
same region next to the same others (`agrees_cons`), so they end with the same regions,
or fail at the same region with the same error (`createRegions_agrees`).
-/

namespace Subdomain

namespace Definitions

variable {ds : Definitions} {n : String} {names : List String}

/-- The definitions of some names, in the order of the names. -/
def inOrder (ds : Definitions) (names : List String) : List (String × Definition) :=
  names.filterMap fun n => (ds.get? n).map (n, ·)

theorem inOrder_cons {definition : Definition} (h : ds.get? n = some definition) :
    ds.inOrder (n :: names) = (n, definition) :: ds.inOrder names := by
  simp [inOrder, h]

theorem names_inOrder (h : ∀ n ∈ names, n ∈ ds.names) :
    (ds.inOrder names).map (·.1) = names := by
  induction names with
  | nil => rfl
  | cons n names ih =>
    obtain ⟨hn, hnames⟩ := List.forall_mem_cons.1 h
    obtain ⟨definition, hd⟩ := NameTable.exists_get?_of_mem_names hn
    rw [inOrder_cons hd, List.map_cons, ih hnames]

end Definitions

namespace Domain

variable {d e : Domain} {fs : Functions} {ds : Definitions} {plan : Plan} {c : Collection}
  {name : String} {names : List String} {definition : Definition} {p : Selection.Program}
  {r : Region} {err : RegionError}

/-- Creates regions in turn, without looking up what they read, up to the first that fails. It is
told with its error. -/
def createEach (fs : Functions) :
    List (String × Definition) → Domain → Domain × Option (String × RegionError)
  | [], d => (d, none)
  | (name, definition) :: rest, d =>
    let created := d.createRegion fs false name definition
    match created.result with
    | .error e => (created.domain, some (name, e))
    | .ok _ => createEach fs rest created.domain

/-! ## One region -/

theorem plain_build (hp : Selection.parse definition.selection.toList = .ok p) :
    Plain (d.build c fs name definition p) := by
  obtain ⟨t, -, rfl⟩ := Selection.parse_eq_ok_iff.1 hp
  unfold build
  rw [Context.run_program]
  exact (Context.plain_evalTree t).bind fun _ _ => Region.plain_setKind

theorem build_of_mesh (h : e.mesh = d.mesh) :
    e.build c fs name definition p = d.build c fs name definition p := by
  have ht : e.topology = d.topology := by rw [e.topology_eq, d.topology_eq, h]
  unfold build context
  rw [h, ht]

theorem single_of_parse (hn : name ∉ d.regions.names)
    (hp : Selection.parse definition.selection.toList = .ok p) :
    d.single fs false name definition = d.build d.regions fs name definition p := by
  have hnew : d.regions.contains name = false := by
    rw [← Bool.not_eq_true, Collection.contains_iff]
    exact hn
  unfold single
  rw [hnew, hp]
  rfl

theorem createRegion_of_error {checkParent : Bool}
    (h : d.single fs checkParent name definition = .error err) :
    d.createRegion fs checkParent name definition = ⟨d, .error (err.within name), []⟩ := by
  unfold createRegion
  rw [h]

theorem createRegion_of_ok {checkParent : Bool}
    (h : d.single fs checkParent name definition = .ok r) (hn : r.name ∉ d.regions.names) :
    d.createRegion fs checkParent name definition =
      ⟨d.withRegions (d.regions.insert r), .ok r, Event.ofRegion r⟩ := by
  rw [createRegion_of_single h, if_neg (by rwa [Collection.contains_iff])]

/-! ## All regions -/

/-- A pass over some names and their creation one by one, both next to the collection `c`, have
come equally far. -/
structure Agrees (names : List String) (c : Collection) (pass : Progress)
    (series : Domain × Option (String × RegionError)) : Prop where
  regions : series.1.regions = pass.regions
  error : pass.error? = series.2.map (·.2)
  /-- The error names the region, and all before it have been added. -/
  failed : ∀ n err, series.2 = some (n, err) → ∃ front back cause, names = front ++ n :: back ∧
    series.1.regions.names = c.names ++ front ∧ err = .inRegion n cause

theorem agrees_error (hd : ds.get? name = some definition)
    (hp : plan.programs.get? name = some p)
    (hparse : Selection.parse definition.selection.toList = .ok p)
    (hmesh : e.mesh = d.mesh) (hn : name ∉ e.regions.names)
    (hb : d.build e.regions fs name definition p = .error err) :
    Agrees (name :: names) e.regions (d.buildAll fs ds plan (name :: names) e.regions)
      (createEach fs (ds.inOrder (name :: names)) e) := by
  have hsingle : e.single fs false name definition = .error err := by
    rw [single_of_parse hn hparse, build_of_mesh hmesh, hb]
  rw [Definitions.inOrder_cons hd, createEach, createRegion_of_error hsingle, buildAll, hd, hp]
  simp only [hb, (plain_build hparse err hb).within]
  refine ⟨rfl, rfl, fun n err' h => ?_⟩
  cases h
  exact ⟨[], names, err, rfl, (List.append_nil _).symm, rfl⟩

theorem agrees_cons (hd : ds.get? name = some definition)
    (hp : plan.programs.get? name = some p)
    (hparse : Selection.parse definition.selection.toList = .ok p)
    (hmesh : e.mesh = d.mesh) (hn : name ∉ e.regions.names)
    (hb : d.build e.regions fs name definition p = .ok r)
    (rest : Agrees names (e.regions.insert r) (d.buildAll fs ds plan names (e.regions.insert r))
      (createEach fs (ds.inOrder names) (e.withRegions (e.regions.insert r)))) :
    Agrees (name :: names) e.regions (d.buildAll fs ds plan (name :: names) e.regions)
      (createEach fs (ds.inOrder (name :: names)) e) := by
  have hsingle : e.single fs false name definition = .ok r := by
    rw [single_of_parse hn hparse, build_of_mesh hmesh, hb]
  have hname : r.name = name := congrArg (·.1) (label_of_build hb)
  rw [Definitions.inOrder_cons hd, createEach, createRegion_of_ok hsingle (hname ▸ hn), buildAll,
    hd, hp]
  simp only [hb]
  refine ⟨rest.regions, rest.error, fun n err h => ?_⟩
  obtain ⟨front, back, cause, hsplit, hnames, hcause⟩ := rest.failed n err h
  refine ⟨name :: front, back, cause, by rw [hsplit, List.cons_append], ?_, hcause⟩
  rw [hnames, Collection.names_insert, hname, if_neg hn, List.append_assoc]
  rfl

theorem agrees_createEach (hmesh : e.mesh = d.mesh) (hnodup : names.Nodup)
    (hnew : ∀ n ∈ names, n ∉ e.regions.names)
    (hdefined : ∀ n ∈ names, ∃ definition p, ds.get? n = some definition ∧
      Selection.parse definition.selection.toList = .ok p ∧ plan.programs.get? n = some p) :
    Agrees names e.regions (d.buildAll fs ds plan names e.regions)
      (createEach fs (ds.inOrder names) e) := by
  -- on the names that are left; the domain has the regions that the pass has made so far
  induction names generalizing e with
  | nil => exact ⟨rfl, rfl, fun _ _ h => nomatch h⟩
  | cons name names ih =>
    obtain ⟨⟨definition, p, hd, hparse, hp⟩, hdefined⟩ := List.forall_mem_cons.1 hdefined
    obtain ⟨hn, hnew⟩ := List.forall_mem_cons.1 hnew
    obtain ⟨hfirst, hnodup⟩ := List.nodup_cons.1 hnodup
    cases hb : d.build e.regions fs name definition p with
    | error err => exact agrees_error hd hp hparse hmesh hn hb
    | ok r =>
      have hname : r.name = name := congrArg (·.1) (label_of_build hb)
      have hnext : ∀ n ∈ names, n ∉ (e.regions.insert r).names := by
        intro m hm
        have hne : m ≠ name := fun h => hfirst (h ▸ hm)
        rw [Collection.names_insert, hname, if_neg hn]
        simp [hne, hnew m hm]
      exact agrees_cons hd hp hparse hmesh hn hb
        (ih (e := e.withRegions (e.regions.insert r)) hmesh hnodup hnext hdefined)

theorem createRegions_of_failed {o : PassOptions} (hplan : ds.plan (d.existing o) o = .ok plan)
    (h : (d.buildAll fs ds plan plan.order (d.existing o)).error? = some err) :
    (d.createRegions fs ds o).result = .error err := by
  unfold createRegions
  rw [← existing]
  simp only [hplan, h]

/-- A pass agrees with creating its regions one by one on an empty domain over the mesh, in the
order of the plan and up to the first that fails: both end with the same regions in the same order,
or both fail at the same region with the same error. -/
theorem createRegions_agrees (d : Domain) (fs : Functions) (ds : Definitions) (plan : Plan)
    (name : String) (h : ds.plan .empty {} = .ok plan) :
    (ds.inOrder plan.order).map (·.1) = plan.order ∧
    ((∃ c e, (d.createRegions fs ds {}).result = .ok c ∧
      (d.createRegions fs ds {}).domain.regions = c ∧
      createEach fs (ds.inOrder plan.order) (ofMesh name d.mesh) = (e, none) ∧ e.regions = c) ∨
    ∃ front n back cause e, plan.order = front ++ n :: back ∧
      (d.createRegions fs ds {}).result = .error (.inRegion n cause) ∧
      createEach fs (ds.inOrder plan.order) (ofMesh name d.mesh) =
        (e, some (n, .inRegion n cause)) ∧
      e.regions.names = front) := by
  have sound := Definitions.plan_eq_ok h
  have hdefined : ∀ n ∈ plan.order, n ∈ ds.names := fun n hn => sound.perm.mem_iff.1 hn
  have agrees : Agrees plan.order .empty
      (d.buildAll fs ds plan plan.order (d.existing {}))
      (createEach fs (ds.inOrder plan.order) (ofMesh name d.mesh)) := by
    refine agrees_createEach (e := ofMesh name d.mesh) rfl sound.nodup (fun n _ => ?_)
      fun n hn => ?_
    · exact List.not_mem_nil
    · obtain ⟨definition, hd⟩ := NameTable.exists_get?_of_mem_names (hdefined n hn)
      obtain ⟨p, hparse, hp⟩ := sound.programs n definition hd
      exact ⟨definition, p, hd, hparse, hp⟩
  have hplan : ds.plan (d.existing {}) {} = .ok plan := h
  generalize createEach fs (ds.inOrder plan.order) (ofMesh name d.mesh) = series at agrees ⊢
  obtain ⟨e, failed?⟩ := series
  obtain ⟨hregions, herror, hfailed⟩ := agrees
  refine ⟨Definitions.names_inOrder hdefined, ?_⟩
  cases failed? with
  | none =>
    have hok := createRegions_of_plan hplan herror
    obtain ⟨-, -, -, -, hdomain⟩ := createRegions_eq_ok hok
    exact .inl ⟨_, e, hok, congrArg Domain.regions hdomain, rfl, hregions⟩
  | some failure =>
    obtain ⟨n, err⟩ := failure
    obtain ⟨front, back, cause, hsplit, hnames, rfl⟩ := hfailed n err rfl
    exact .inr ⟨front, n, back, cause, e, hsplit, createRegions_of_failed hplan herror, rfl, hnames⟩

/-- Regions with a forward reference, and others of which the third reads a cell that is not there. -/
theorem createRegions_agrees_square :
    let d := ((ofMesh "square" (.unitSquare 2 1)).createRegion .empty true "Old"
      { selection := "all" }).domain
    let left : String × Definition := ("Left", { selection := "cell 0" })
    let all : String × Definition := ("All", { selection := "all", parent := some "Rest" })
    let ds : Definitions := .ofList
      [("Rest", { selection := "r.All -c r.Left", kind := .vertex }), all, left]
    let es : Definitions := .ofList [("Rest", { selection := "r.All -c cell 7" }), all, left]
    (∃ plan c e, ds.plan .empty {} = .ok plan ∧ (d.createRegions .empty ds {}).result = .ok c ∧
      createEach .empty (ds.inOrder plan.order) (ofMesh "other" d.mesh) = (e, none) ∧
      e.regions = c ∧ c.names = ["All", "Left", "Rest"]) ∧
    ∃ plan cause e, es.plan .empty {} = .ok plan ∧
      (d.createRegions .empty es {}).result = .error (.inRegion "Rest" cause) ∧
      createEach .empty (es.inOrder plan.order) (ofMesh "other" d.mesh) =
        (e, some ("Rest", .inRegion "Rest" cause)) ∧
      e.regions.names = ["All", "Left"] := by
  intro d left all ds es
  obtain ⟨plan, hplan, -⟩ : ∃ plan, ds.plan .empty {} = .ok plan ∧
      plan.order = ["All", "Left", "Rest"] := exists_ok_of_toOption (by decide +kernel)
  obtain ⟨plan', hplan', horder'⟩ : ∃ plan, es.plan .empty {} = .ok plan ∧
      plan.order = ["All", "Left", "Rest"] := exists_ok_of_toOption (by decide +kernel)
  obtain ⟨c, hc, hnames⟩ : ∃ c, (d.createRegions .empty ds {}).result = .ok c ∧
      c.names = ["All", "Left", "Rest"] := exists_ok_of_toOption (by decide +kernel)
  refine ⟨?_, ?_⟩
  · obtain ⟨-, ⟨c', e, hc', -, heach, hregions⟩ | ⟨_, _, _, _, _, -, he, -⟩⟩ :=
      createRegions_agrees d .empty ds plan "other" hplan
    · cases hc.symm.trans hc'
      exact ⟨plan, c, e, hplan, hc, heach, hregions, hnames⟩
    · cases hc.symm.trans he
  · obtain ⟨-, ⟨c', e, hc', -⟩ | ⟨_, n, _, cause, e, -, he, heach, -⟩⟩ :=
      createRegions_agrees d .empty es plan' "other" hplan'
    · have hnone : (d.createRegions .empty es {}).result.toOption.map Collection.names = none := by
        decide +kernel
      rw [hc'] at hnone
      cases hnone
    · have hend :
          let series := createEach .empty (es.inOrder ["All", "Left", "Rest"]) (ofMesh "other" d.mesh)
          series.2.map (·.1) = some "Rest" ∧ series.1.regions.names = ["All", "Left"] := by
        decide +kernel
      rw [← horder', heach] at hend
      obtain ⟨hn, hnames'⟩ := hend
      cases hn
      exact ⟨plan', cause, e, hplan', he, heach, hnames'⟩

end Domain

end Subdomain

import Subdomain.Domain.Basic
import Subdomain.Mesh.Grid
import Subdomain.Proofs.Definition.Order
import Subdomain.Proofs.Evaluation.Reading
import Subdomain.Proofs.Region.Conversion

/-!
# Passes

A pass makes its regions one after the other, each next to those before it. As a
region is made behind all that its text reads and nothing overwrites it, it is
also what its text selects next to the final collection: a pass that succeeds
solves its definitions (`createRegions_solves`).
-/

namespace Subdomain

namespace Domain

variable {d : Domain} {fs : Functions} {ds : Definitions} {plan : Plan} {c c' : Collection}

/-- The region `r` is what a definition selects next to the collection `c`. -/
def Solves (d : Domain) (fs : Functions) (c : Collection) (name : String)
    (definition : Definition) (r : Region) : Prop :=
  ∃ p s, Selection.parse definition.selection.toList = .ok p ∧
    (d.context c fs).run p = .ok s ∧
    (((s.setName name).setDefinition definition.selection).setParent definition.parent).setKind
      d.topology definition.kind = ⟨r, none⟩

theorem build_eq_ok {name : String} {definition : Definition} {p : Selection.Program} {r : Region}
    (h : d.build c fs name definition p = .ok r) :
    ∃ s, (d.context c fs).run p = .ok s ∧
      (((s.setName name).setDefinition definition.selection).setParent definition.parent).setKind
        d.topology definition.kind = ⟨r, none⟩ := by
  obtain ⟨s, hs, hr⟩ := exists_ok_of_bind h
  exact ⟨s, hs, Change.toExcept_eq_ok_iff.1 hr⟩

theorem label_of_build {name : String} {definition : Definition} {p : Selection.Program}
    {r : Region} (h : d.build c fs name definition p = .ok r) :
    r.label = (name, definition.selection, definition.parent) := by
  obtain ⟨s, -, hr⟩ := build_eq_ok h
  exact Region.label_setKind hr

theorem build_congr {name : String} {definition : Definition} {p : Selection.Program}
    (h : c.AgreeOn p.references c') :
    d.build c fs name definition p = d.build c' fs name definition p := by
  unfold build
  rw [show (d.context c fs).run p = (d.context c' fs).run p from
    Context.run_congr (x := d.context c fs) h]

/-- A region that was made is added unless its name is taken. -/
theorem createRegion_of_single {checkParent : Bool} {name : String} {definition : Definition}
    {r : Region} (h : d.single fs checkParent name definition = .ok r) :
    d.createRegion fs checkParent name definition =
      if d.regions.contains r.name then
        ⟨d, .error ((RegionError.duplicateRegion r.name).within name), Event.ofRegion r⟩
      else ⟨d.withRegions (d.regions.insert r), .ok r, Event.ofRegion r⟩ := by
  unfold createRegion
  rw [h]
  dsimp only [Collection.add]
  by_cases hn : d.regions.contains r.name = true
  · rw [if_pos hn, if_pos hn]
    rfl
  · rw [if_neg hn, if_neg hn]

/-! ## One step of a pass -/

theorem buildAll_cons {name : String} {names : List String}
    (h : (d.buildAll fs ds plan (name :: names) c).error? = none) :
    ∃ definition p r, ds.get? name = some definition ∧ plan.programs.get? name = some p ∧
      d.build c fs name definition p = .ok r ∧
      (d.buildAll fs ds plan names (c.insert r)).error? = none ∧
      (d.buildAll fs ds plan (name :: names) c).regions =
        (d.buildAll fs ds plan names (c.insert r)).regions := by
  rw [buildAll] at h ⊢
  split at h
  · rename_i definition p hd hp
    cases hb : d.build c fs name definition p with
    | error e => simp [hb] at h
    | ok r =>
      simp only [hb] at h ⊢
      exact ⟨definition, p, r, hd, hp, hb, h, rfl⟩
  · cases h

/-! ## A whole pass -/

/-- What a pass over `names` makes of the collection `c`. -/
structure Passed (d : Domain) (fs : Functions) (ds : Definitions) (plan : Plan)
    (names : List String) (c c' : Collection) : Prop where
  appended : c'.names = c.names ++ names.filter (· ∉ c.names)
  kept : ∀ n ∉ names, c'.get? n = c.get? n
  /-- Every region is made next to a collection that differs from the last one at most in the
  regions that are still to be made. -/
  made : ∀ front n back, names = front ++ n :: back → ∃ definition p r c₁,
    ds.get? n = some definition ∧ plan.programs.get? n = some p ∧
    d.build c₁ fs n definition p = .ok r ∧ c'.get? n = some r ∧
    ∀ m ∉ n :: back, c₁.get? m = c'.get? m

theorem passed_buildAll {names : List String} (hn : names.Nodup)
    (h : (d.buildAll fs ds plan names c).error? = none) :
    Passed d fs ds plan names c (d.buildAll fs ds plan names c).regions := by
  induction names generalizing c with
  | nil =>
    refine ⟨by simp [buildAll], fun _ _ => rfl, fun front n back hf => ?_⟩
    simp at hf
  | cons name names ih =>
    obtain ⟨definition, p, r, hd, hp, hb, hrest, hregions⟩ := buildAll_cons h
    have hr : r.name = name := congrArg (·.1) (label_of_build hb)
    obtain ⟨hname, hn⟩ := List.nodup_cons.1 hn
    have rest := ih hn hrest
    rw [hregions]
    refine ⟨?_, fun m hm => ?_, fun front n back hf => ?_⟩
    · rw [rest.appended, Collection.names_insert, hr]
      by_cases hc : name ∈ c.names
      · simp [hc]
      · have hfilter : names.filter (· ∉ c.names ++ [name]) = names.filter (· ∉ c.names) := by
          refine List.filter_congr fun m hm => ?_
          have : m ≠ name := fun e => hname (e ▸ hm)
          simp [this]
        rw [if_neg hc, hfilter, List.filter_cons_of_pos (by simpa using hc), List.append_assoc]
        rfl
    · rw [List.mem_cons, not_or] at hm
      rw [rest.kept m hm.2, Collection.get?_insert, hr, if_neg hm.1]
    · cases front with
      | nil =>
        cases hf
        refine ⟨definition, p, r, c, hd, hp, hb, ?_, fun m hm => ?_⟩
        · rw [rest.kept name hname, Collection.get?_insert, if_pos hr.symm]
        · rw [List.mem_cons, not_or] at hm
          rw [rest.kept m hm.2, Collection.get?_insert, hr, if_neg hm.1]
      | cons a front =>
        cases hf
        exact rest.made front n back rfl

/-- The regions that a pass starts from. -/
def existing (d : Domain) (o : PassOptions) : Collection := if o.fresh then .empty else d.regions

theorem createRegions_eq_ok {o : PassOptions}
    (h : (d.createRegions fs ds o).result = .ok c) :
    ∃ plan, ds.plan (d.existing o) o = .ok plan ∧
      (d.buildAll fs ds plan plan.order (d.existing o)).error? = none ∧
      (d.buildAll fs ds plan plan.order (d.existing o)).regions = c ∧
      (d.createRegions fs ds o).domain = d.withRegions c := by
  unfold createRegions at h ⊢
  rw [← existing] at h ⊢
  cases hplan : ds.plan (d.existing o) o with
  | error e => simp [hplan] at h
  | ok plan =>
    simp only [hplan] at h ⊢
    cases herr : (d.buildAll fs ds plan plan.order (d.existing o)).error? with
    | some e => simp [herr] at h
    | none =>
      simp only [herr, Except.ok.injEq] at h ⊢
      exact ⟨plan, rfl, herr, h, h ▸ rfl⟩

/-- A pass that succeeds solves its definitions: next to the resulting collection every definition
selects just the region that stands there under its name. Other regions are kept, or dropped
in a fresh pass, and new names follow in the order of the plan. -/
theorem createRegions_solves (d : Domain) (fs : Functions) (ds : Definitions) (o : PassOptions)
    (c : Collection) (h : (d.createRegions fs ds o).result = .ok c) :
    (d.createRegions fs ds o).domain = d.withRegions c ∧
    (∀ name definition, ds.get? name = some definition →
      ∃ r, c.get? name = some r ∧ d.Solves fs c name definition r) ∧
    (∀ name, name ∉ ds.names → c.get? name = if o.fresh then none else d.regions.get? name) ∧
    ∃ plan, ds.plan (d.existing o) o = .ok plan ∧
      c.names = (d.existing o).names ++ plan.order.filter (· ∉ (d.existing o).names) := by
  obtain ⟨plan, hplan, herr, rfl, hdomain⟩ := createRegions_eq_ok h
  have sound := Definitions.plan_eq_ok hplan
  have hnodup : plan.order.Nodup := sound.perm.nodup_iff.2 ds.nodup
  have passed := passed_buildAll hnodup herr
  refine ⟨hdomain, fun name definition hd => ?_, fun name hname => ?_, plan, hplan, passed.appended⟩
  · have hmem : name ∈ plan.order := sound.perm.mem_iff.2 (NameTable.mem_names_of_get? hd)
    obtain ⟨front, back, hsplit⟩ := List.append_of_mem hmem
    obtain ⟨definition', p, r, c₁, hd', hp, hb, hr, hagree⟩ := passed.made front name back hsplit
    cases hd.symm.trans hd'
    obtain ⟨q, hq, hqp⟩ := sound.programs name definition hd
    cases hp.symm.trans hqp
    refine ⟨r, hr, p, ?_⟩
    -- what the text reads is made before, or is not made at all
    have hreads : c₁.AgreeOn p.references
        (d.buildAll fs ds plan plan.order (d.existing o)).regions := by
      intro m hm
      refine hagree m fun hlate => ?_
      have horder : m ∈ plan.order := by rw [hsplit]; exact List.mem_append_right _ hlate
      have hfront : m ∈ front := sound.ordered front name back hsplit m (by simpa [hp]) horder
      rw [hsplit] at hnodup
      exact (List.nodup_append.1 hnodup).2.2 m hfront m hlate rfl
    rw [build_congr hreads] at hb
    obtain ⟨s, hs, hkind⟩ := build_eq_ok hb
    exact ⟨s, hq, hs, hkind⟩
  · have : name ∉ plan.order := fun hmem => hname (sound.perm.mem_iff.1 hmem)
    rw [passed.kept name this, existing]
    split <;> rfl

/-- A pass that keeps an older region and reorders its definitions. -/
theorem createRegions_solves_square :
    let d := ((Domain.ofMesh "square" (.unitSquare 2 1)).createRegion .empty true "Old"
      { selection := "cell 0" }).domain
    let ds : Definitions := .ofList
      [("Rest", { selection := "r.All -c r.Old", kind := .vertex }), ("All", { selection := "all" })]
    ∃ c, (d.createRegions .empty ds { fresh := false }).result = .ok c ∧
      c.names = ["Old", "All", "Rest"] ∧ ∃ r, c.get? "Rest" = some r ∧
        d.Solves .empty c "Rest" { selection := "r.All -c r.Old", kind := .vertex } r := by
  intro d ds
  obtain ⟨c, hc, hnames⟩ : ∃ c, (d.createRegions .empty ds { fresh := false }).result = .ok c ∧
      c.names = ["Old", "All", "Rest"] :=
    exists_ok_of_toOption (f := Collection.names) (by decide +kernel)
  exact ⟨c, hc, hnames,
    (createRegions_solves d .empty ds _ c hc).2.1 "Rest" _ (by decide +kernel)⟩

end Domain

end Subdomain

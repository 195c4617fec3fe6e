import Subdomain.Proofs.Domain.Calls
import Subdomain.Proofs.Domain.Series

/-!
# Looking up references first

Creating a region can look up all that its text reads, and its parent, before anything is
evaluated. As evaluation stops for no leaf but the one that fails, a text that reads a
region that does not exist fails with the lookup and without it. So next to a parent that
exists the lookup decides only which error is reported (`createRegion_precheck`).
-/

namespace Subdomain

namespace Domain

variable {d : Domain} {fs : Functions} {c : Collection} {name n : String} {definition : Definition}
  {p : Selection.Program}

/-- Of the regions that the text of a definition reads, `n` is the first that does not exist. -/
structure Unknown (d : Domain) (definition : Definition) (p : Selection.Program) (n : String) :
    Prop where
  parses : Selection.parse definition.selection.toList = .ok p
  first : ∃ front back, p.references = front ++ n :: back ∧ ∀ m ∈ front, m ∈ d.regions.names
  unknown : n ∉ d.regions.names

theorem unknown_of_missing? (hp : Selection.parse definition.selection.toList = .ok p)
    (hparent : ∀ n, definition.parent = some n → n ∈ d.regions.names)
    (h : d.missing? definition.parent p = some n) : d.Unknown definition p n := by
  have hcontains {m : String} : (!d.regions.contains m) = true ↔ m ∉ d.regions.names := by
    rw [← Collection.contains_iff, Bool.not_eq_true', Bool.not_eq_true]
  have hnone : definition.parent.toList.find? (!d.regions.contains ·) = none :=
    List.find?_eq_none.2 fun m hm h => hcontains.1 h (hparent m (Option.mem_toList.1 hm))
  rw [missing?, List.find?_append, hnone, Option.or_none] at h
  obtain ⟨hn, front, back, hsplit, hfront⟩ := List.find?_eq_some_iff_append.1 h
  refine ⟨hp, ⟨front, back, hsplit, fun m hm => ?_⟩, hcontains.1 hn⟩
  have hknown := hfront m hm
  rwa [Bool.not_not, Collection.contains_iff] at hknown

/-- What reads a region that does not exist cannot be evaluated. -/
theorem exists_build_eq_error (hn : n ∈ p.references) (hc : n ∉ c.names) :
    ∃ e, d.build c fs name definition p = .error e := by
  cases hb : d.build c fs name definition p with
  | error e => exact ⟨e, rfl⟩
  | ok r =>
    obtain ⟨s, hs, -⟩ := build_eq_ok hb
    exact absurd (Context.mem_names_of_run (x := d.context c fs) hs hn) hc

/-- The lookup changes nothing, or it reports the first region that does not exist where
evaluation reports something. -/
theorem single_cases (fs : Functions) (name : String)
    (hparent : ∀ n, definition.parent = some n → n ∈ d.regions.names) :
    d.single fs true name definition = d.single fs false name definition ∨
    ∃ p n e, d.Unknown definition p n ∧
      d.single fs true name definition = .error (.regionNotFound n) ∧
      d.single fs false name definition = .error e := by
  by_cases hname : d.regions.contains name = true
  · left
    unfold single
    rw [hname]
    rfl
  have hfresh : name ∉ d.regions.names := fun h => hname (Collection.contains_iff.2 h)
  cases hp : Selection.parse definition.selection.toList with
  | error e =>
    left
    unfold single
    rw [hp]
  | ok p =>
    rw [single_of_parse hfresh hp]
    unfold single
    rw [Bool.eq_false_iff.2 hname, hp]
    cases hm : d.missing? definition.parent p with
    | none =>
      left
      dsimp only [if_true]
      rw [hm]
      rfl
    | some n =>
      have hn := unknown_of_missing? hp hparent hm
      obtain ⟨front, back, hsplit, -⟩ := hn.first
      obtain ⟨e, he⟩ : ∃ e, d.build d.regions fs name definition p = .error e :=
        exists_build_eq_error (by rw [hsplit]; simp) hn.unknown
      refine .inr ⟨p, n, e, hn, ?_, he⟩
      dsimp only [if_true]
      rw [hm]
      rfl

/-- Next to a parent that exists, looking up what a text reads changes nothing about a region that
can be created, and the regions afterwards are the same. Only the error can be another: that of the
first region that does not exist. -/
theorem createRegion_precheck (d : Domain) (fs : Functions) (name : String)
    (definition : Definition)
    (hparent : ∀ n, definition.parent = some n → n ∈ d.regions.names) :
    let checked := d.createRegion fs true name definition
    let plain := d.createRegion fs false name definition
    (∀ r, checked.result = .ok r ↔ plain.result = .ok r) ∧
    checked.domain.regions = plain.domain.regions ∧
    (checked = plain ∨ ∃ p n e, d.Unknown definition p n ∧
      checked = ⟨d, .error (.inRegion name (.regionNotFound n)), []⟩ ∧
      plain = ⟨d, .error e, []⟩) := by
  intro checked plain
  obtain hsame | ⟨p, n, e, hn, hchecked, hplain⟩ := single_cases fs name hparent
  · have heq : checked = plain := by
      unfold checked plain createRegion
      rw [hsame]
    rw [heq]
    exact ⟨fun _ => .rfl, rfl, .inl rfl⟩
  · have hc : checked = ⟨d, .error (.inRegion name (.regionNotFound n)), []⟩ :=
      createRegion_of_error hchecked
    have hp : plain = ⟨d, .error (e.within name), []⟩ := createRegion_of_error hplain
    rw [hc, hp]
    exact ⟨fun r => iff_of_false nofun nofun, rfl, .inr ⟨p, n, _, hn, rfl, rfl⟩⟩

/-- A region that can be created, and one for which evaluation fails earlier than the lookup. -/
theorem createRegion_precheck_square :
    let d := ((ofMesh "square" (.unitSquare 2 1)).createRegion .empty true "All"
      { selection := "all" }).domain
    let left : Definition := { selection := "r.All -c cell 1", parent := some "All" }
    let ghost : Definition := { selection := "vertex 9 +v r.Ghost", parent := some "All" }
    (∃ r, (d.createRegion .empty true "Left" left).result = .ok r ∧
      (d.createRegion .empty false "Left" left).result = .ok r ∧
      (d.createRegion .empty true "Left" left).domain.regions.names = ["All", "Left"]) ∧
    (Call.createRegion .empty true "Ghost" ghost).error? d =
      some (.inRegion "Ghost" (.regionNotFound "Ghost")) ∧
    (Call.createRegion .empty false "Ghost" ghost).error? d =
      some (.inRegion "Ghost" (.invalidVertexIndex 9 6)) ∧
    (d.createRegion .empty true "Ghost" ghost).domain.regions.names = ["All"] := by
  intro d left ghost
  have hnames : d.regions.names = ["All"] := by decide +kernel
  have hparent : ∀ n, some "All" = some n → n ∈ d.regions.names := by
    rintro n ⟨⟩
    rw [hnames]
    exact List.mem_singleton_self _
  obtain ⟨hok, hregions, -⟩ := createRegion_precheck d .empty "Left" left hparent
  obtain ⟨-, hregions', -⟩ := createRegion_precheck d .empty "Ghost" ghost hparent
  obtain ⟨r, hr, -⟩ : ∃ r, (d.createRegion .empty false "Left" left).result = .ok r ∧
      r.name = "Left" := exists_ok_of_toOption (by decide +kernel)
  refine ⟨⟨r, (hok r).2 hr, hr, ?_⟩, ?_, ?_, ?_⟩
  · rw [hregions]
    decide +kernel
  · decide +kernel
  · decide +kernel
  · rw [hregions']
    decide +kernel

end Domain

end Subdomain

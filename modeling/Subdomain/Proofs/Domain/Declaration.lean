import Subdomain.Proofs.Definition.Schedule
import Subdomain.Proofs.Domain.Pass

/-!
# The order of declaration

Definitions that are declared in another order are planned in another order, but
each still behind all that it reads. So what one pass made of a definition every
other pass makes of it again (`buildAll_of_passed`), and the regions of a pass, like
its success, do not depend on the order of declaration (`createRegions_perm`).
-/

namespace Subdomain

theorem Plan.Sound.nodup {plan : Plan} {ds : Definitions} {c : Collection} {o : PassOptions}
    (h : plan.Sound ds c o) : plan.order.Nodup :=
  h.perm.nodup_iff.2 ds.nodup

/-- What a definition reads is made before it, or is not made at all. -/
theorem Plan.Sound.not_mem_of_reads {plan : Plan} {ds : Definitions} {c : Collection}
    {o : PassOptions} (h : plan.Sound ds c o) {front back : List String} {n m : String}
    {p : Selection.Program} (hsplit : plan.order = front ++ n :: back)
    (hp : plan.programs.get? n = some p) (hm : m ∈ p.references) : m ∉ n :: back := by
  intro hlate
  have horder : m ∈ plan.order := by rw [hsplit]; exact List.mem_append_right _ hlate
  have hfront : m ∈ front := h.ordered front n back hsplit m (by simpa [hp]) horder
  have hnodup := h.nodup
  rw [hsplit] at hnodup
  exact (List.nodup_append.1 hnodup).2.2 m hfront m hlate rfl

namespace Collection

theorem nodup_names (c : Collection) : c.names.Nodup := c.table.nodup

theorem mem_names_iff {c : Collection} {n : String} : n ∈ c.names ↔ c.get? n ≠ none := by
  rw [get?, ne_eq, NameTable.get?_eq_none_iff, Decidable.not_not, names]

theorem names_perm_of_get? {c c' : Collection} (h : ∀ n, c.get? n = c'.get? n) :
    c.names.Perm c'.names := by
  rw [List.perm_ext_iff_of_nodup c.nodup_names c'.nodup_names]
  intro n
  rw [mem_names_iff, mem_names_iff, h]

end Collection

namespace Domain

variable {d : Domain} {fs : Functions} {ds es : Definitions} {plan plan' : Plan}
  {c c₁ c₂ target : Collection} {o : PassOptions}

/-! ## Two plans of the same definitions -/

/-- What a pass has made of a definition is made again next to a collection that lacks only what
is still to be made. -/
theorem build_of_passed (sound : plan.Sound ds c o)
    (passed : Passed d fs ds plan plan.order c target) (sound' : plan'.Sound ds c o)
    {front back : List String} {n : String} (hsplit : plan'.order = front ++ n :: back)
    (h : ∀ m ∉ n :: back, c₁.get? m = target.get? m) :
    ∃ definition p r, ds.get? n = some definition ∧ plan'.programs.get? n = some p ∧
      d.build c₁ fs n definition p = .ok r ∧ target.get? n = some r := by
  have hmem : n ∈ plan'.order := by rw [hsplit]; simp
  obtain ⟨early, late, hsplit'⟩ :=
    List.append_of_mem (sound.perm.mem_iff.2 (sound'.perm.mem_iff.1 hmem))
  obtain ⟨definition, p, r, c₂, hd, hp, hb, hr, hagree⟩ := passed.made early n late hsplit'
  obtain ⟨q, hq, hqp⟩ := sound.programs n definition hd
  obtain ⟨q', hq', hqp'⟩ := sound'.programs n definition hd
  cases hq.symm.trans hq'
  cases hp.symm.trans hqp
  refine ⟨definition, p, r, hd, hqp', ?_, hr⟩
  have hreads : c₁.AgreeOn p.references c₂ := by
    intro m hm
    rw [h m (sound'.not_mem_of_reads hsplit hqp' hm),
      hagree m (sound.not_mem_of_reads hsplit' hp hm)]
  rw [build_congr hreads, hb]

/-- A pass over the rest of another plan ends at the same regions. -/
theorem buildAll_of_passed (sound : plan.Sound ds c o)
    (passed : Passed d fs ds plan plan.order c target) (sound' : plan'.Sound ds c o)
    (hget : ∀ n, es.get? n = ds.get? n) {front names : List String}
    (hsplit : plan'.order = front ++ names) (h : ∀ m ∉ names, c₁.get? m = target.get? m) :
    (d.buildAll fs es plan' names c₁).error? = none ∧
      ∀ m, (d.buildAll fs es plan' names c₁).regions.get? m = target.get? m := by
  induction names generalizing front c₁ with
  | nil => exact ⟨rfl, fun m => h m List.not_mem_nil⟩
  | cons n names ih =>
    obtain ⟨definition, p, r, hd, hp, hb, hr⟩ := build_of_passed sound passed sound' hsplit h
    have hname : r.name = n := Collection.name_of_get? hr
    have hnext : ∀ m ∉ names, (c₁.insert r).get? m = target.get? m := by
      intro m hm
      rw [Collection.get?_insert, hname]
      split
      · rename_i hmn
        rw [hmn, hr]
      · rename_i hmn
        exact h m (by simp [hmn, hm])
    rw [buildAll, hget, hd, hp]
    simp only [hb]
    exact ih (by rw [hsplit, List.append_cons]) hnext

/-! ## Passes -/

theorem createRegions_of_plan (hplan : ds.plan (d.existing o) o = .ok plan)
    (h : (d.buildAll fs ds plan plan.order (d.existing o)).error? = none) :
    (d.createRegions fs ds o).result =
      .ok (d.buildAll fs ds plan plan.order (d.existing o)).regions := by
  unfold createRegions
  rw [← existing]
  simp only [hplan, h]

theorem createRegions_ok_of_perm (hperm : ds.entries.Perm es.entries)
    (h : (d.createRegions fs ds o).result = .ok c) :
    ∃ c', (d.createRegions fs es o).result = .ok c' ∧ ∀ n, c.get? n = c'.get? n := by
  obtain ⟨plan, hplan, herr, rfl, -⟩ := createRegions_eq_ok h
  have sound := Definitions.plan_eq_ok hplan
  have passed := passed_buildAll sound.nodup herr
  obtain ⟨plan', hplan'⟩ := Definitions.exists_plan_of_sound (sound.of_perm hperm)
  have sound' := (Definitions.plan_eq_ok hplan').of_perm hperm.symm
  have hstart : ∀ m ∉ plan'.order, (d.existing o).get? m =
      (d.buildAll fs ds plan plan.order (d.existing o)).regions.get? m := by
    intro m hm
    refine (passed.kept m fun hmem => hm ?_).symm
    exact sound'.perm.mem_iff.2 (sound.perm.mem_iff.1 hmem)
  obtain ⟨hnone, hsame⟩ := buildAll_of_passed sound passed sound'
    (fun n => (NameTable.get?_perm hperm n).symm) (List.nil_append _).symm hstart
  exact ⟨_, createRegions_of_plan hplan' hnone, fun n => (hsame n).symm⟩

/-- A pass does not depend on the order in which its definitions are declared: it leaves the same
regions under the same names, or fails, whatever the order. -/
theorem createRegions_perm (d : Domain) (fs : Functions) (o : PassOptions) (ds es : Definitions)
    (h : ds.entries.Perm es.entries) :
    (∃ c c', (d.createRegions fs ds o).result = .ok c ∧
      (d.createRegions fs es o).result = .ok c' ∧
      (d.createRegions fs ds o).domain = d.withRegions c ∧
      (d.createRegions fs es o).domain = d.withRegions c' ∧
      c.names.Perm c'.names ∧ ∀ n, c.get? n = c'.get? n) ∨
    (∃ e e', (d.createRegions fs ds o).result = .error e ∧
      (d.createRegions fs es o).result = .error e') := by
  cases hds : (d.createRegions fs ds o).result with
  | ok c =>
    obtain ⟨c', hes, hsame⟩ := createRegions_ok_of_perm h hds
    obtain ⟨-, -, -, -, hd⟩ := createRegions_eq_ok hds
    obtain ⟨-, -, -, -, he⟩ := createRegions_eq_ok hes
    exact .inl ⟨c, c', rfl, hes, hd, he, Collection.names_perm_of_get? hsame, hsame⟩
  | error e =>
    cases hes : (d.createRegions fs es o).result with
    | error e' => exact .inr ⟨e, e', rfl, rfl⟩
    | ok c' =>
      obtain ⟨c, hok, -⟩ := createRegions_ok_of_perm h.symm hes
      rw [hds] at hok
      cases hok

/-- Two regions that do not read each other come in the order of their declaration. -/
theorem createRegions_perm_square :
    let d := Domain.ofMesh "square" (.unitSquare 2 1)
    let left : String × Definition := ("Left", { selection := "cell 0" })
    let right : String × Definition := ("Right", { selection := "cell 1" })
    let all : String × Definition := ("All", { selection := "r.Left +c r.Right" })
    let ds : Definitions := .ofList [left, right, all]
    let es : Definitions := .ofList [all, right, left]
    ds.entries.Perm es.entries ∧ ∃ c c', (d.createRegions .empty ds {}).result = .ok c ∧
      (d.createRegions .empty es {}).result = .ok c' ∧
      c.names = ["Left", "Right", "All"] ∧ c'.names = ["Right", "Left", "All"] ∧
      ∀ n, c.get? n = c'.get? n := by
  intro d left right all ds es
  have hperm : ds.entries.Perm es.entries := by decide +kernel
  refine ⟨hperm, ?_⟩
  obtain ⟨c₀, hc₀, hnames⟩ : ∃ c, (d.createRegions .empty ds {}).result = .ok c ∧
      c.names = ["Left", "Right", "All"] := exists_ok_of_toOption (by decide +kernel)
  obtain ⟨c₁, hc₁, hnames'⟩ : ∃ c, (d.createRegions .empty es {}).result = .ok c ∧
      c.names = ["Right", "Left", "All"] := exists_ok_of_toOption (by decide +kernel)
  obtain ⟨_, _, hc, hd, -, -, -, hsame⟩ | ⟨e, -, he, -⟩ :=
    createRegions_perm d .empty {} ds es hperm
  · cases hc₀.symm.trans hc
    cases hc₁.symm.trans hd
    exact ⟨c₀, c₁, hc, hd, hnames, hnames', hsame⟩
  · cases hc₀.symm.trans he

end Domain

end Subdomain

import Subdomain.Proofs.Definition.Order

/-!
# When definitions can be planned

Names that some order puts behind their needs never wait for a cycle, as the first
of them that waits is ready. So planning fails only for want of a sound plan
(`exists_plan_of_sound`), and whether there is one does not depend on the order in
which the definitions are declared (`Plan.Sound.of_perm`).
-/

namespace Subdomain

namespace NameTable

variable {β : Type} {t u : NameTable β}

theorem get?_perm (h : t.entries.Perm u.entries) (name : String) : t.get? name = u.get? name := by
  apply Option.ext
  intro v
  rw [get?_eq_some_iff, get?_eq_some_iff, h.mem_iff]

theorem names_perm (h : t.entries.Perm u.entries) : t.names.Perm u.names := h.map _

end NameTable

namespace Dependencies

variable {d : Dependencies} {w : List (String × Nat)} {order : List String}

theorem Counted.ready_ne_nil (h : Counted d w) (ho : Ordered d.needs order)
    (hsub : pending w ⊆ order) (hw : w ≠ []) : ready w ≠ [] := by
  obtain ⟨e, he⟩ := List.exists_mem_of_ne_nil w hw
  have hsome : (order.find? (· ∈ pending w)).isSome = true := by
    rw [List.find?_isSome]
    have hmem : e.1 ∈ pending w := List.mem_map_of_mem he
    exact ⟨e.1, hsub hmem, decide_eq_true hmem⟩
  -- what the first waiting name of the order needs stands before it, and so does not wait
  obtain ⟨n, hfind⟩ := Option.isSome_iff_exists.1 hsome
  obtain ⟨hn, front, back, hsplit, hfront⟩ := List.find?_eq_some_iff_append.1 hfind
  have hneeds : (d.needs n).filter (· ∈ pending w) = [] := by
    rw [List.filter_eq_nil_iff]
    intro m hm hp
    have hp : m ∈ pending w := of_decide_eq_true hp
    have hmem : m ∈ front := ho front n back hsplit m hm (hsub hp)
    have hnot := hfront m hmem
    rw [decide_eq_true hp] at hnot
    cases hnot
  obtain ⟨⟨m, k⟩, hmem, rfl⟩ := List.mem_map.1 (of_decide_eq_true hn)
  have hk : k = 0 := (h.count _ hmem).trans (List.length_eq_zero_iff.2 hneeds)
  subst hk
  exact List.ne_nil_of_mem (mem_ready.2 hmem)

theorem exists_levelsFrom (h : Counted d w) (ho : Ordered d.needs order)
    (hsub : pending w ⊆ order) : ∃ ls, levelsFrom d w = .ok ls := by
  induction w using levelsFrom.induct d with
  | case1 w he =>
    rw [levelsFrom, if_pos he]
    exact ⟨[], rfl⟩
  | case2 w he hr => exact absurd hr (h.ready_ne_nil ho hsub (by simpa using he))
  | case3 w he hr _ ih =>
    obtain ⟨ls, hls⟩ := ih h.step fun n hn => hsub (pending_step_sublist.subset hn)
    rw [levelsFrom, if_neg he, dif_neg hr, hls]
    exact ⟨ready w :: ls, rfl⟩

theorem exists_levels (ho : Ordered d.needs order) (hsub : d.names ⊆ order) :
    ∃ ls, d.levels = .ok ls := by
  rw [levels_eq]
  exact exists_levelsFrom counted_waiting ho (pending_waiting ▸ hsub)

end Dependencies

namespace Definitions

variable {ds : Definitions} {existing : Collection} {o : PassOptions} {plan : Plan}

theorem exists_parseEntries {es : List (String × Definition)}
    (h : ∀ e ∈ es, ∃ p, Selection.parse e.2.selection.toList = .ok p) :
    ∃ ps, parseEntries es = .ok ps := by
  induction es with
  | nil => exact ⟨[], rfl⟩
  | cons e es ih =>
    obtain ⟨p, hp⟩ := h e List.mem_cons_self
    obtain ⟨ps, hps⟩ := ih fun a ha => h a (List.mem_cons_of_mem _ ha)
    rw [parseEntries, hp, hps]
    exact ⟨(e.1, p) :: ps, rfl⟩

theorem exists_programs (h : ∀ name definition, ds.get? name = some definition →
    ∃ p, Selection.parse definition.selection.toList = .ok p) : ∃ ps, ds.programs = .ok ps := by
  obtain ⟨ps, hps⟩ : ∃ ps, parseEntries ds.entries = .ok ps :=
    exists_parseEntries fun e he => h e.1 e.2 (NameTable.get?_eq_some_iff.2 he)
  unfold programs
  split
  · rename_i e he
    rw [hps] at he
    cases he
  · exact ⟨_, rfl⟩

theorem dangling_of_known {known : String → Bool} {checkParents : Bool} {name : String}
    {p : Selection.Program} (hr : ∀ m ∈ p.references, known m = true)
    (hp : checkParents = true → ∀ definition, ds.get? name = some definition →
      ∀ parent, definition.parent = some parent → known parent = true) :
    ds.dangling known checkParents name p = [] := by
  unfold dangling
  rw [List.append_eq_nil_iff]
  constructor
  · rw [List.map_eq_nil_iff, List.filter_eq_nil_iff]
    intro m hm
    simp [hr m hm]
  · split
    · rename_i hc
      rw [List.map_eq_nil_iff, List.filter_eq_nil_iff]
      intro parent hparent
      rw [Option.mem_toList, Option.bind_eq_some_iff] at hparent
      obtain ⟨definition, hd, hparent⟩ := hparent
      simp [hp hc definition hd parent hparent]
    · rfl

section Sound

variable {ps : NameTable Selection.Program} (h : plan.Sound ds existing o)
  (hps : ds.programs = .ok ps)
include h hps

theorem get?_programs_of_sound {name : String} {p : Selection.Program}
    (hp : ps.get? name = some p) : plan.programs.get? name = some p := by
  obtain ⟨definition, hd⟩ :=
    NameTable.exists_get?_of_mem_names (names_programs hps ▸ NameTable.mem_names_of_get? hp)
  obtain ⟨q, hq, hqs⟩ := get?_programs hps hd
  obtain ⟨q', hq', hplan⟩ := h.programs name definition hd
  cases hq.symm.trans hq'
  cases hp.symm.trans hqs
  exact hplan

theorem ordered_of_sound : Ordered (ds.dependencies ps).needs plan.order := by
  intro front n back hsplit m hm hmem
  rw [mem_needs_dependencies (names_programs hps)] at hm
  refine h.ordered front n back hsplit m ?_ hmem
  cases hp : ps.get? n with
  | none => simp [hp] at hm
  | some p =>
    rw [hp] at hm
    simpa only [get?_programs_of_sound h hps hp] using hm.2

end Sound

/-- If there is a sound plan, planning finds one. -/
theorem exists_plan_of_sound (h : plan.Sound ds existing o) :
    ∃ plan', ds.plan existing o = .ok plan' := by
  obtain ⟨ps, hps⟩ := exists_programs fun name definition hd =>
    (h.programs name definition hd).imp fun _ hp => hp.1
  have hknown {m : String} (hm : m ∈ ds.names ∨ m ∈ existing.names) :
      (ds.contains m || existing.contains m) = true := by
    rwa [Bool.or_eq_true, NameTable.contains_iff, Collection.contains_iff]
  have hdangling : ∀ e ∈ ps.entries,
      ds.dangling (fun n => ds.contains n || existing.contains n) o.checkParents e.1 e.2 = [] := by
    intro e he
    have hp := get?_programs_of_sound h hps (NameTable.get?_eq_some_iff.2 he)
    refine dangling_of_known (fun m hm => hknown (h.known e.1 e.2 hp m hm)) ?_
    intro hc definition hd parent hparent
    exact hknown (h.parents hc e.1 definition hd parent hparent)
  have hnames : (ds.dependencies ps).names = ds.names :=
    NameTable.names_mapValues.trans (names_programs hps)
  obtain ⟨ls, hls⟩ := Dependencies.exists_levels (ordered_of_sound h hps) fun n hn =>
    h.perm.mem_iff.2 (hnames ▸ hn)
  unfold Definitions.plan
  rw [hps]
  simp only [bind, Except.bind]
  split
  · rename_i hu
    rw [List.flatMap_eq_nil_iff.2 hdangling] at hu
    cases hu
  · rw [hls]
    exact ⟨_, rfl⟩

end Definitions

/-- The order in which definitions are declared does not matter to a sound plan. -/
theorem Plan.Sound.of_perm {plan : Plan} {ds es : Definitions} {existing : Collection}
    {o : PassOptions} (hperm : ds.entries.Perm es.entries) (h : plan.Sound ds existing o) :
    plan.Sound es existing o where
  perm := h.perm.trans (NameTable.names_perm hperm)
  programs name definition hd := h.programs name definition (NameTable.get?_perm hperm name ▸ hd)
  ordered := h.ordered
  known name p hp m hm := (h.known name p hp m hm).imp_left (NameTable.names_perm hperm).mem_iff.1
  parents hc name definition hd parent hparent :=
    (h.parents hc name definition (NameTable.get?_perm hperm name ▸ hd) parent hparent).imp_left
      (NameTable.names_perm hperm).mem_iff.1

end Subdomain

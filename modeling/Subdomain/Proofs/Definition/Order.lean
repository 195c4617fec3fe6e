import Subdomain.Definition.Plan
import Subdomain.Proofs.Definition.Kahn

/-!
# The order of a plan

A name is ready only when all its needs are placed. So the levels list every name once and
behind its needs (`Dependencies.levels_eq_ok`), and a plan lists every defined name once,
behind the defined names that it reads (`Plan.Sound`).
-/

namespace Subdomain

/-- Every name stands behind its needs, as far as they are listed. -/
def Ordered (needs : String → List String) (order : List String) : Prop :=
  ∀ front n back, order = front ++ n :: back → ∀ m ∈ needs n, m ∈ order → m ∈ front

theorem Ordered.append {needs : String → List String} {l r : List String}
    (hl : ∀ n ∈ l, ∀ m ∈ needs n, m ∉ l ++ r) (hr : Ordered needs r) : Ordered needs (l ++ r) := by
  intro front n back h m hm hmem
  have hlr := List.mem_append.1 hmem
  obtain ⟨t, rfl, ht⟩ | ⟨t, ht, hback⟩ := List.append_eq_append_iff.1 h
  · rcases hlr with hlr | hlr
    · exact List.mem_append_left _ hlr
    · exact List.mem_append_right _ (hr t n back ht m hm hlr)
  · cases t with
    | nil =>
      rw [List.append_nil] at ht
      subst ht
      rcases hlr with hlr | hlr
      · exact hlr
      · exact absurd (hr [] n back hback.symm m hm hlr) List.not_mem_nil
    | cons a t =>
      rw [List.cons_append, List.cons.injEq] at hback
      have hn : n ∈ l := by rw [ht, hback.1]; simp
      exact absurd hmem (hl n hn m hm)

namespace Dependencies

variable {d : Dependencies} {w : List (String × Nat)}

/-- What the levels of waiting names hold. -/
theorem levelsFrom_eq_ok (h : Counted d w) {ls : List (List String)}
    (hl : levelsFrom d w = .ok ls) :
    ls.flatten.Perm (pending w) ∧ Ordered d.needs ls.flatten := by
  induction w using levelsFrom.induct d generalizing ls with
  | case1 w he =>
    rw [levelsFrom, if_pos he] at hl
    cases hl
    have hw : w = [] := by simpa using he
    subst hw
    exact ⟨.nil, fun front n back hf => by simp at hf⟩
  | case2 w he hr =>
    rw [levelsFrom, if_neg he, dif_pos hr] at hl
    cases hl
  | case3 w he hr _ ih =>
    rw [levelsFrom, if_neg he, dif_neg hr] at hl
    cases hrest : levelsFrom d (Dependencies.step d (ready w) w) with
    | error e => rw [hrest] at hl; cases hl
    | ok rest =>
      rw [hrest] at hl
      cases hl
      obtain ⟨hperm, hord⟩ := ih h.step hrest
      have hp : (ready w ++ rest.flatten).Perm (pending w) :=
        (hperm.append_left _).trans perm_ready_step
      refine ⟨hp, Ordered.append (fun n hn m hm hmem => ?_) hord⟩
      exact h.needs_of_mem_ready hn hm (hp.mem_iff.1 hmem)

theorem levels_eq_ok {ls : List (List String)} (h : d.levels = .ok ls) :
    ls.flatten.Perm d.names ∧ Ordered d.needs ls.flatten := by
  rw [← pending_waiting]
  exact levelsFrom_eq_ok counted_waiting (levels_eq.symm.trans h)

end Dependencies

/-! ## Plans -/

/-- What a plan of some definitions next to existing regions holds. -/
structure Plan.Sound (plan : Plan) (ds : Definitions) (existing : Collection)
    (o : PassOptions) : Prop where
  perm : plan.order.Perm ds.names
  programs : ∀ name definition, ds.get? name = some definition →
    ∃ p, Selection.parse definition.selection.toList = .ok p ∧ plan.programs.get? name = some p
  ordered : Ordered (fun n => ((plan.programs.get? n).map (·.references)).getD []) plan.order
  known : ∀ name p, plan.programs.get? name = some p → ∀ m ∈ p.references,
    m ∈ ds.names ∨ m ∈ existing.names
  parents : o.checkParents = true → ∀ name definition, ds.get? name = some definition →
    ∀ parent, definition.parent = some parent → parent ∈ ds.names ∨ parent ∈ existing.names

namespace Definitions

variable {ds : Definitions}

theorem mem_parseEntries {es : List (String × Definition)}
    {ps : List (String × Selection.Program)} (h : parseEntries es = .ok ps) {name : String}
    {definition : Definition} (he : (name, definition) ∈ es) :
    ∃ p, Selection.parse definition.selection.toList = .ok p ∧ (name, p) ∈ ps := by
  induction es generalizing ps with
  | nil => cases he
  | cons e es ih =>
    obtain ⟨n, d⟩ := e
    simp only [parseEntries] at h
    split at h
    · cases h
    · rename_i p hp
      cases hr : parseEntries es with
      | error e => simp [hr, bind, Except.bind] at h
      | ok qs =>
        rw [hr] at h
        cases h
        rcases List.mem_cons.1 he with heq | he
        · cases heq
          exact ⟨p, hp, List.mem_cons_self⟩
        · obtain ⟨q, hq, hmem⟩ := ih hr he
          exact ⟨q, hq, List.mem_cons_of_mem _ hmem⟩

theorem programs_eq_ok {ps : NameTable Selection.Program} (h : ds.programs = .ok ps) :
    parseEntries ds.entries = .ok ps.entries := by
  unfold programs at h
  split at h
  · cases h
  · cases h
    assumption

theorem names_programs {ps : NameTable Selection.Program} (h : ds.programs = .ok ps) :
    ps.names = ds.names :=
  map_fst_parseEntries (programs_eq_ok h)

theorem get?_programs {ps : NameTable Selection.Program} (h : ds.programs = .ok ps)
    {name : String} {definition : Definition} (hd : ds.get? name = some definition) :
    ∃ p, Selection.parse definition.selection.toList = .ok p ∧ ps.get? name = some p := by
  obtain ⟨p, hp, hmem⟩ := mem_parseEntries (programs_eq_ok h) (NameTable.get?_eq_some_iff.1 hd)
  exact ⟨p, hp, NameTable.get?_eq_some_iff.2 hmem⟩

theorem mem_needs_dependencies {ps : NameTable Selection.Program} (h : ps.names = ds.names)
    {n m : String} : m ∈ (ds.dependencies ps).needs n ↔
      m ∈ ds.names ∧ m ∈ ((ps.get? n).map (·.references)).getD [] := by
  have hn : (ds.dependencies ps).names = ds.names := NameTable.names_mapValues.trans h
  rw [Dependencies.needs, List.mem_filter, NameTable.contains_iff, hn, List.mem_eraseDups,
    dependencies, NameTable.get?_mapValues]
  cases ps.get? n <;> simp [NameTable.contains_iff, and_comm]

theorem dangling_eq_nil {known : String → Bool} {checkParents : Bool} {name : String}
    {p : Selection.Program} (h : ds.dangling known checkParents name p = []) :
    (∀ m ∈ p.references, known m = true) ∧
      (checkParents = true → ∀ definition, ds.get? name = some definition →
        ∀ parent, definition.parent = some parent → known parent = true) := by
  unfold dangling at h
  obtain ⟨hr, hp⟩ := List.append_eq_nil_iff.1 h
  refine ⟨fun m hm => ?_, fun hc definition hd parent hpar => ?_⟩
  · simpa using List.filter_eq_nil_iff.1 (List.map_eq_nil_iff.1 hr) m hm
  · rw [if_pos hc] at hp
    cases hk : known parent with
    | true => rfl
    | false => simp [hd, hpar, hk] at hp

theorem plan_eq_ok {existing : Collection} {o : PassOptions} {plan : Plan}
    (h : ds.plan existing o = .ok plan) : plan.Sound ds existing o := by
  unfold Definitions.plan at h
  cases hp : ds.programs with
  | error e => rw [hp] at h; cases h
  | ok ps =>
    rw [hp] at h
    simp only [bind, Except.bind] at h
    split at h
    · cases h
    · rename_i hu
      simp only [Bool.not_eq_true', Bool.not_eq_false, List.isEmpty_iff,
        List.flatMap_eq_nil_iff] at hu
      have hk {n : String} (hn : (ds.contains n || existing.contains n) = true) :
          n ∈ ds.names ∨ n ∈ existing.names := by
        rwa [Bool.or_eq_true, NameTable.contains_iff, Collection.contains_iff] at hn
      split at h
      · cases h
      · rename_i levels hl
        cases h
        obtain ⟨hperm, hord⟩ := Dependencies.levels_eq_ok hl
        have hn : (ds.dependencies ps).names = ds.names :=
          NameTable.names_mapValues.trans (names_programs hp)
        rw [hn] at hperm
        refine ⟨hperm, fun name definition => get?_programs hp, ?_, ?_, ?_⟩
        · intro front n back hf m hm hmem
          exact hord front n back hf m
            ((mem_needs_dependencies (names_programs hp)).2 ⟨hperm.mem_iff.1 hmem, hm⟩) hmem
        · intro name p hps m hm
          exact hk ((dangling_eq_nil (hu _ (NameTable.get?_eq_some_iff.1 hps))).1 m hm)
        · intro hc name definition hd parent hpar
          obtain ⟨p, -, hps⟩ := get?_programs hp hd
          exact hk ((dangling_eq_nil (hu _ (NameTable.get?_eq_some_iff.1 hps))).2 hc _ hd _ hpar)

end Definitions

end Subdomain

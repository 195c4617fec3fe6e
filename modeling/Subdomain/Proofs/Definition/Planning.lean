import Mathlib.Data.List.Nodup
import Subdomain.Proofs.Definition.Layers
import Subdomain.Proofs.Definition.Schedule

/-!
# What planning reports

Planning looks for one kind of problem after the other: texts that do not parse, names
that nothing defines, cycles. A report is complete and in the order of declaration, and
where there is nothing to report there is a plan (`Definitions.Planned`). The regions
that exist count when names are looked for; to the cycles and to the order of the plan
only definitions matter.
-/

namespace Subdomain

/-! ## The order of first use -/

namespace Selection

theorem pairwise_idxOf_firstUses (ns : List String) :
    (firstUses ns).Pairwise fun a b => ns.idxOf a < ns.idxOf b := by
  induction ns with
  | nil => exact .nil
  | cons n ns ih =>
    have hlater {a : String} (ha : a ∈ (firstUses ns).filter (· ≠ n)) :
        (n :: ns).idxOf a = ns.idxOf a + 1 :=
      List.idxOf_cons_ne ns (Ne.symm (of_decide_eq_true (List.mem_filter.1 ha).2))
    refine List.pairwise_cons.2 ⟨fun a ha => ?_, ?_⟩
    · rw [List.idxOf_cons_self, hlater ha]
      exact Nat.succ_pos _
    · refine (ih.filter _).imp_of_mem fun {a b} ha hb hab => ?_
      rw [hlater ha, hlater hb]
      exact Nat.succ_lt_succ hab

end Selection

/-- Names without repeats stand in the order of their first use. -/
theorem pairwise_idxOf_of_nodup {ns : List String} (h : ns.Nodup) :
    ns.Pairwise fun a b => ns.idxOf a < ns.idxOf b := by
  rw [List.pairwise_iff_getElem]
  intro i j hi hj hij
  rwa [h.idxOf_getElem i hi, h.idxOf_getElem j hj]

/-! ## What definitions say -/

def Definition.Parses (d : Definition) : Prop := ∃ p, Selection.parse d.selection.toList = .ok p

namespace Definitions

variable {ds : Definitions} {existing : Collection} {o : PassOptions}
  {ps : NameTable Selection.Program} {p : Selection.Program} {n m : String} {u v : Dangling}

def Readable (ds : Definitions) : Prop := ∀ e ∈ ds.entries, e.2.Parses

/-- The names that the text of a definition reads, as often as it does. -/
def reads (ds : Definitions) (name : String) : List String :=
  ((ds.get? name).bind fun d => (Selection.parse d.selection.toList).toOption).elim []
    (·.filterMap (·.reference?))

/-- The definition `n` reads the definition `m`. -/
def DependsOn (ds : Definitions) (n m : String) : Prop := m ∈ ds.names ∧ m ∈ ds.reads n

/-- A cycle can be reached from `n`. -/
def MeetsCycle (ds : Definitions) (n : String) : Prop :=
  ∃ m, Relation.ReflTransGen ds.DependsOn n m ∧ Relation.TransGen ds.DependsOn m m

/-- What a pass looks up. -/
inductive Uses (ds : Definitions) (o : PassOptions) : Dangling → Prop where
  | read {n m : String} : m ∈ ds.reads n → Uses ds o ⟨n, m, false⟩
  | parent {n m : String} {definition : Definition} : o.checkParents = true →
      ds.get? n = some definition → definition.parent = some m → Uses ds o ⟨n, m, true⟩

/-- What a pass looks up and does not find. -/
structure Dangles (ds : Definitions) (existing : Collection) (o : PassOptions) (u : Dangling) :
    Prop where
  uses : ds.Uses o u
  undefined : u.name ∉ ds.names
  absent : u.name ∉ existing.names

/-- The use `u` is to be reported before the use `v`. -/
inductive Earlier (ds : Definitions) : Dangling → Dangling → Prop where
  | definition {u v : Dangling} :
      ds.names.idxOf u.definition < ds.names.idxOf v.definition → Earlier ds u v
  | read {n l m : String} :
      (ds.reads n).idxOf l < (ds.reads n).idxOf m → Earlier ds ⟨n, l, false⟩ ⟨n, m, false⟩
  | parent {n l m : String} : Earlier ds ⟨n, l, false⟩ ⟨n, m, true⟩

theorem Earlier.ne (h : ds.Earlier u v) : u ≠ v := by
  rintro rfl
  cases h with
  | definition h => exact Nat.lt_irrefl _ h
  | read h => exact Nat.lt_irrefl _ h

/-- What planning gives for definitions next to existing regions. -/
structure Planned (ds : Definitions) (existing : Collection) (o : PassOptions)
    (result : Except RegionError Plan) : Prop where
  /-- The first definition that does not parse is reported, whatever else is wrong. -/
  unreadable : ¬ ds.Readable → ∃ front name definition back e,
    ds.entries = front ++ (name, definition) :: back ∧ (∀ f ∈ front, f.2.Parses) ∧
      Selection.parse definition.selection.toList = .error e ∧
      result = .error (.inRegion name (.syntaxError e))
  /-- All names that are not found are reported, each once. -/
  dangling : ds.Readable → (∃ u, ds.Dangles existing o u) → ∃ uses,
    result = .error (.undefinedParents uses) ∧ (∀ u, u ∈ uses ↔ ds.Dangles existing o u) ∧
      uses.Nodup ∧ uses.Pairwise ds.Earlier
  cyclic : ds.Readable → (∀ u, ¬ ds.Dangles existing o u) →
    (∃ n, Relation.TransGen ds.DependsOn n n) → ∃ names,
      result = .error (.dependencyCycle names) ∧ names.Sublist ds.names ∧
        ∀ n, n ∈ names ↔ n ∈ ds.names ∧ ds.MeetsCycle n
  planned : ds.Readable → (∀ u, ¬ ds.Dangles existing o u) →
    (∀ n, ¬ Relation.TransGen ds.DependsOn n n) → ∃ plan,
      result = .ok plan ∧ plan.order.Perm ds.names ∧ Ordered ds.reads plan.order ∧
        plan.programs.names = ds.names ∧ ∀ name definition, ds.get? name = some definition →
          ∃ p, Selection.parse definition.selection.toList = .ok p ∧
            plan.programs.get? name = some p

/-! ## Texts -/

/-- Parsing stops at the first definition that does not parse. -/
theorem exists_of_parseEntries {es : List (String × Definition)} {e : RegionError}
    (h : parseEntries es = .error e) : ∃ front name definition back s,
      es = front ++ (name, definition) :: back ∧ (∀ f ∈ front, f.2.Parses) ∧
        Selection.parse definition.selection.toList = .error s ∧
        e = .inRegion name (.syntaxError s) := by
  induction es with
  | nil => cases h
  | cons entry es ih =>
    obtain ⟨name, definition⟩ := entry
    rw [parseEntries] at h
    split at h
    · rename_i s hs
      cases h
      exact ⟨[], name, definition, es, s, rfl, fun _ hf => absurd hf List.not_mem_nil, hs, rfl⟩
    · rename_i p hp
      cases hes : parseEntries es with
      | ok ps => rw [hes] at h; cases h
      | error e' =>
        rw [hes] at h
        cases h
        obtain ⟨front, name', definition', back, s, rfl, hfront, hs, rfl⟩ := ih hes
        refine ⟨(name, definition) :: front, name', definition', back, s, rfl, ?_, hs, rfl⟩
        exact List.forall_mem_cons.2 ⟨⟨p, hp⟩, hfront⟩

theorem programs_eq_error {e : RegionError} (h : ds.programs = .error e) :
    parseEntries ds.entries = .error e := by
  unfold programs at h
  split at h
  · cases h
    assumption
  · cases h

theorem Readable.exists_programs (h : ds.Readable) : ∃ ps, ds.programs = .ok ps :=
  Definitions.exists_programs fun name _ hd => h (name, _) (NameTable.get?_eq_some_iff.1 hd)

theorem readable_of_programs (hps : ds.programs = .ok ps) : ds.Readable := by
  intro e he
  obtain ⟨p, hp, -⟩ := get?_programs hps (NameTable.get?_eq_some_iff.2 he)
  exact ⟨p, hp⟩

/-! ## Reads -/

section Programs

variable (hps : ds.programs = .ok ps)
include hps

theorem reads_eq (hp : ps.get? n = some p) : ds.reads n = p.filterMap (·.reference?) := by
  obtain ⟨d, hd⟩ :=
    NameTable.exists_get?_of_mem_names (names_programs hps ▸ NameTable.mem_names_of_get? hp)
  obtain ⟨q, hq, hqs⟩ := get?_programs hps hd
  cases hp.symm.trans hqs
  rw [reads, hd, Option.bind_some, hq]
  rfl

theorem mem_reads_iff : m ∈ ds.reads n ↔ ∃ p, ps.get? n = some p ∧ m ∈ p.references := by
  cases hp : ps.get? n with
  | some p => simp [reads_eq hps hp, Selection.Program.references, Selection.mem_firstUses]
  | none =>
    have hn : ds.get? n = none := by
      rwa [NameTable.get?_eq_none_iff, ← names_programs hps, ← NameTable.get?_eq_none_iff]
    simp [reads, hn]

theorem dependsOn_dependencies : (ds.dependencies ps).DependsOn = ds.DependsOn := by
  funext n m
  apply propext
  rw [← Dependencies.mem_needs_iff, mem_needs_dependencies (names_programs hps), DependsOn,
    mem_reads_iff hps]
  cases ps.get? n <;> simp

/-! ## Names that are not found -/

/-- What planning reports of parsed definitions. -/
def undefined (ds : Definitions) (existing : Collection) (o : PassOptions)
    (ps : NameTable Selection.Program) : List Dangling :=
  ps.entries.flatMap fun e =>
    ds.dangling (fun n => ds.contains n || existing.contains n) o.checkParents e.1 e.2

theorem mem_dangling_iff {known : String → Bool} (hp : ps.get? n = some p) :
    u ∈ ds.dangling known o.checkParents n p ↔
      u.definition = n ∧ ds.Uses o u ∧ known u.name = false := by
  obtain ⟨n', m, isParent⟩ := u
  unfold dangling
  constructor
  · rw [List.mem_append]
    rintro (h | h)
    · obtain ⟨m', hm, he⟩ := List.mem_map.1 h
      cases he
      obtain ⟨hm, hknown⟩ := List.mem_filter.1 hm
      exact ⟨rfl, .read ((mem_reads_iff hps).2 ⟨p, hp, hm⟩), by simpa using hknown⟩
    · split at h
      · rename_i hc
        obtain ⟨m', hm, he⟩ := List.mem_map.1 h
        cases he
        obtain ⟨hm, hknown⟩ := List.mem_filter.1 hm
        rw [Option.mem_toList, Option.bind_eq_some_iff] at hm
        obtain ⟨d, hd, hparent⟩ := hm
        exact ⟨rfl, .parent hc hd hparent, by simpa using hknown⟩
      · cases h
  · rintro ⟨rfl, huses, hknown⟩
    rw [List.mem_append]
    cases huses with
    | read hm =>
      left
      obtain ⟨q, hq, hm⟩ := (mem_reads_iff hps).1 hm
      cases hp.symm.trans hq
      exact List.mem_map.2 ⟨m, List.mem_filter.2 ⟨hm, by rw [hknown]; rfl⟩, rfl⟩
    | parent hc hd hparent =>
      right
      rw [if_pos hc]
      refine List.mem_map.2 ⟨m, List.mem_filter.2 ⟨?_, by rw [hknown]; rfl⟩, rfl⟩
      rw [Option.mem_toList, Option.bind_eq_some_iff]
      exact ⟨_, hd, hparent⟩

theorem pairwise_dangling {known : String → Bool} {checkParents : Bool} (hp : ps.get? n = some p) :
    (ds.dangling known checkParents n p).Pairwise ds.Earlier := by
  have hreads : p.references.Pairwise fun l m => (ds.reads n).idxOf l < (ds.reads n).idxOf m := by
    rw [reads_eq hps hp]
    exact Selection.pairwise_idxOf_firstUses _
  unfold dangling
  refine List.pairwise_append.2 ⟨?_, ?_, ?_⟩
  · exact List.pairwise_map.2 ((hreads.filter _).imp .read)
  · -- there is one parent at most
    split
    · cases (ds.get? n).bind (·.parent) with
      | none => exact .nil
      | some m => cases hk : known m <;> simp [hk]
    · exact .nil
  · intro u hu v hv
    obtain ⟨l, -, rfl⟩ := List.mem_map.1 hu
    split at hv
    · obtain ⟨m, -, rfl⟩ := List.mem_map.1 hv
      exact .parent
    · cases hv

theorem mem_undefined_iff : u ∈ ds.undefined existing o ps ↔ ds.Dangles existing o u := by
  have hknown : (ds.contains u.name || existing.contains u.name) = false ↔
      u.name ∉ ds.names ∧ u.name ∉ existing.names := by
    rw [Bool.or_eq_false_iff, ← Bool.not_eq_true, ← Bool.not_eq_true, NameTable.contains_iff,
      Collection.contains_iff]
  rw [undefined, List.mem_flatMap]
  constructor
  · rintro ⟨e, he, hu⟩
    obtain ⟨-, huses, hnot⟩ := (mem_dangling_iff hps (NameTable.get?_eq_some_iff.2 he)).1 hu
    obtain ⟨hundefined, habsent⟩ := hknown.1 hnot
    exact ⟨huses, hundefined, habsent⟩
  · rintro ⟨huses, hundefined, habsent⟩
    obtain ⟨p, hp⟩ : ∃ p, ps.get? u.definition = some p := by
      cases huses with
      | read hm => exact ((mem_reads_iff hps).1 hm).imp fun _ => And.left
      | parent _ hd _ => exact (get?_programs hps hd).imp fun _ => And.right
    exact ⟨_, NameTable.get?_eq_some_iff.1 hp,
      (mem_dangling_iff hps hp).2 ⟨rfl, huses, hknown.2 ⟨hundefined, habsent⟩⟩⟩

theorem pairwise_undefined : (ds.undefined existing o ps).Pairwise ds.Earlier := by
  have hnames : ps.entries.Pairwise fun e f => ds.names.idxOf e.1 < ds.names.idxOf f.1 := by
    rw [← names_programs hps]
    have hnodup := pairwise_idxOf_of_nodup ps.nodup
    rwa [List.pairwise_map] at hnodup
  have hget {e : String × Selection.Program} (he : e ∈ ps.entries) : ps.get? e.1 = some e.2 :=
    NameTable.get?_eq_some_iff.2 he
  refine List.pairwise_flatMap.2 ⟨fun e he => pairwise_dangling hps (hget he), ?_⟩
  refine hnames.imp_of_mem fun {e f} he hf hlt u hu v hv => .definition ?_
  rwa [((mem_dangling_iff hps (hget he)).1 hu).1, ((mem_dangling_iff hps (hget hf)).1 hv).1]

/-! ## Plans -/

theorem plan_of_undefined (h : ds.undefined existing o ps ≠ []) :
    ds.plan existing o = .error (.undefinedParents (ds.undefined existing o ps)) := by
  have hsome : (!(ds.undefined existing o ps).isEmpty) = true := by simpa using h
  unfold plan
  rw [hps]
  exact if_pos hsome

theorem plan_of_levels_eq_error {names : List String} (h : ds.undefined existing o ps = [])
    (hl : (ds.dependencies ps).levels = .error names) :
    ds.plan existing o = .error (.dependencyCycle names) := by
  unfold plan
  rw [hps]
  unfold undefined at h
  simp only [bind, Except.bind, h, hl]
  rfl

theorem plan_of_levels_eq_ok {ls : List (List String)} (h : ds.undefined existing o ps = [])
    (hl : (ds.dependencies ps).levels = .ok ls) :
    ds.plan existing o = .ok ⟨ls.flatten, ps⟩ := by
  unfold plan
  rw [hps]
  unfold undefined at h
  simp only [bind, Except.bind, h, hl]
  rfl

theorem undefined_eq_nil (hfound : ∀ u, ¬ ds.Dangles existing o u) :
    ds.undefined existing o ps = [] :=
  List.eq_nil_iff_forall_not_mem.2 fun u hu => hfound u ((mem_undefined_iff hps).1 hu)

theorem names_dependencies : (ds.dependencies ps).names = ds.names :=
  NameTable.names_mapValues.trans (names_programs hps)

/-- A cycle keeps the definitions that meet one from being placed. -/
theorem plan_of_cycle (hfound : ∀ u, ¬ ds.Dangles existing o u)
    (hn : Relation.TransGen ds.DependsOn n n) : ∃ names,
      ds.plan existing o = .error (.dependencyCycle names) ∧ names.Sublist ds.names ∧
        ∀ m, m ∈ names ↔ m ∈ ds.names ∧ ds.MeetsCycle m := by
  rw [← dependsOn_dependencies hps] at hn
  cases hl : (ds.dependencies ps).levels with
  | ok ls => exact absurd hn (Dependencies.acyclic_of_levels hl n)
  | error names =>
    obtain ⟨-, hsub, hmem⟩ := Dependencies.levels_eq_error hl
    rw [names_dependencies hps] at hsub
    refine ⟨names, plan_of_levels_eq_error hps (undefined_eq_nil hps hfound) hl, hsub, fun m => ?_⟩
    rw [hmem, names_dependencies hps, Dependencies.MeetsCycle, dependsOn_dependencies hps]
    rfl

theorem plan_of_acyclic (hfound : ∀ u, ¬ ds.Dangles existing o u)
    (hacyclic : ∀ n, ¬ Relation.TransGen ds.DependsOn n n) : ∃ order,
      ds.plan existing o = .ok ⟨order, ps⟩ ∧ order.Perm ds.names ∧ Ordered ds.reads order := by
  rw [← dependsOn_dependencies hps] at hacyclic
  cases hl : (ds.dependencies ps).levels with
  | error names => exact absurd hacyclic (Dependencies.levels_eq_error hl).1
  | ok ls =>
    obtain ⟨hperm, hord⟩ := Dependencies.levels_eq_ok hl
    rw [names_dependencies hps] at hperm
    refine ⟨_, plan_of_levels_eq_ok hps (undefined_eq_nil hps hfound) hl, hperm, ?_⟩
    intro front n back hsplit m hm hmem
    have hneeds : m ∈ (ds.dependencies ps).needs n := by
      rw [Dependencies.mem_needs_iff, dependsOn_dependencies hps]
      exact ⟨hperm.mem_iff.1 hmem, hm⟩
    exact hord front n back hsplit m hneeds hmem

end Programs

theorem plan_of_unreadable (h : ¬ ds.Readable) : ∃ front name definition back e,
    ds.entries = front ++ (name, definition) :: back ∧ (∀ f ∈ front, f.2.Parses) ∧
      Selection.parse definition.selection.toList = .error e ∧
      ds.plan existing o = .error (.inRegion name (.syntaxError e)) := by
  cases hps : ds.programs with
  | ok ps => exact absurd (readable_of_programs hps) h
  | error e =>
    obtain ⟨front, name, definition, back, s, hsplit, hfront, hs, rfl⟩ :=
      exists_of_parseEntries (programs_eq_error hps)
    refine ⟨front, name, definition, back, s, hsplit, hfront, hs, ?_⟩
    unfold plan
    rw [hps]
    rfl

/-- Planning reports the first definition that does not parse; or else all names that are not
found, by definitions, and in each by first use with the parent last; or else the definitions that
meet a cycle. Otherwise it gives an order in which each definition stands behind those it reads. -/
theorem planned_plan (ds : Definitions) (existing : Collection) (o : PassOptions) :
    ds.Planned existing o (ds.plan existing o) where
  unreadable := plan_of_unreadable
  dangling hread := by
    rintro ⟨u, hu⟩
    obtain ⟨ps, hps⟩ := hread.exists_programs
    have hmem : u ∈ ds.undefined existing o ps := (mem_undefined_iff hps).2 hu
    have hearlier : (ds.undefined existing o ps).Pairwise ds.Earlier := pairwise_undefined hps
    exact ⟨_, plan_of_undefined hps (List.ne_nil_of_mem hmem), fun _ => mem_undefined_iff hps,
      hearlier.imp Earlier.ne, hearlier⟩
  cyclic hread hfound := by
    rintro ⟨n, hn⟩
    obtain ⟨ps, hps⟩ := hread.exists_programs
    exact plan_of_cycle hps hfound hn
  planned hread hfound hacyclic := by
    obtain ⟨ps, hps⟩ := hread.exists_programs
    obtain ⟨order, hplan, hperm, hordered⟩ := plan_of_acyclic hps hfound hacyclic
    exact ⟨⟨order, ps⟩, hplan, hperm, hordered, names_programs hps,
      fun name definition => get?_programs hps⟩

/-- A region `a` that exists does not break the cycle of the definition `a`. -/
example :
    (plan (.ofList [("c", ⟨"all", .cell, some "a"⟩), ("b", ⟨"r.a", .cell, none⟩),
        ("a", ⟨"r.a", .cell, none⟩)])
      (Collection.empty.insert (.ofVertices "a" (.ofList [0]))) {}).map (·.order) =
    .error (.dependencyCycle ["b", "a"]) := by
  decide +kernel

end Definitions

end Subdomain

import Subdomain.Proofs.Domain.Pass
import Subdomain.Proofs.Evaluation.Settled

/-!
# Calls

A domain changes by calls: a reset, one region next to those that exist, or a
pass. Whatever is called, every region stays settled, in range and named by its
key, and its text parses and reads regions that exist (`sound_after`). As long as
every call checks parents they exist as well. A call that fails changes nothing.
-/

namespace Subdomain

inductive Call where
  | reset
  | createRegion (functions : Functions) (checkParent : Bool) (name : String)
    (definition : Definition)
  | createRegions (functions : Functions) (definitions : Definitions) (options : PassOptions)

namespace Call

def checksParents : Call → Bool
  | reset => true
  | createRegion _ checkParent _ _ => checkParent
  | createRegions _ _ o => o.checkParents

/-- The domain that a call leaves behind. -/
def next (d : Domain) : Call → Domain
  | reset => d.reset
  | createRegion fs checkParent name definition =>
    (d.createRegion fs checkParent name definition).domain
  | createRegions fs ds o => (d.createRegions fs ds o).domain

/-- The error that a call reports. -/
def error? (d : Domain) : Call → Option RegionError
  | reset => none
  | createRegion fs checkParent name definition =>
    match (d.createRegion fs checkParent name definition).result with
    | .ok _ => none
    | .error e => some e
  | createRegions fs ds o =>
    match (d.createRegions fs ds o).result with
    | .ok _ => none
    | .error e => some e

end Call

/-! ## Invariants of a collection -/

/-- The region came out of a conversion. -/
structure Region.Converted (t : Topology) (r : Region) : Prop where
  settled : r.Settled t
  face : r.kind = .face → t.hasFaces = true

namespace Collection

def Converted (t : Topology) (c : Collection) : Prop :=
  ∀ n r, c.get? n = some r → r.Converted t

/-- The text of a region parses, and it reads the given names only. -/
def Reads (names : List String) (r : Region) : Prop :=
  ∃ p, Selection.parse r.definition.toList = .ok p ∧ ∀ m ∈ p.references, m ∈ names

def Closed (c : Collection) : Prop := ∀ n r, c.get? n = some r → Reads c.names r

def Rooted (c : Collection) : Prop :=
  ∀ n r, c.get? n = some r → ∀ parent, r.parent = some parent → parent ∈ c.names

variable {t : Topology} {c : Collection} {r : Region}

theorem Converted.settled (h : c.Converted t) : c.Settled t :=
  fun n r hr => (h n r hr).settled

theorem Reads.mono {names names' : List String} (h : Reads names r) (hsub : names ⊆ names') :
    Reads names' r := by
  obtain ⟨p, hp, hr⟩ := h
  exact ⟨p, hp, fun m hm => hsub (hr m hm)⟩

theorem names_subset_insert : c.names ⊆ (c.insert r).names := by
  intro n hn
  rw [names_insert]
  split
  · exact hn
  · exact List.mem_append_left _ hn

theorem forall_insert {P : Region → Prop} (hr : P r) (h : ∀ n s, c.get? n = some s → P s) :
    ∀ n s, (c.insert r).get? n = some s → P s := by
  intro n s hs
  rw [get?_insert] at hs
  split at hs
  · cases hs
    exact hr
  · exact h n s hs

theorem converted_empty : empty.Converted t := fun _ _ h => nomatch h

theorem closed_empty : empty.Closed := fun _ _ h => nomatch h

theorem rooted_empty : empty.Rooted := fun _ _ h => nomatch h

theorem Converted.insert (h : c.Converted t) (hr : r.Converted t) : (c.insert r).Converted t :=
  forall_insert hr h

theorem Closed.insert (h : c.Closed) (hr : Reads c.names r) : (c.insert r).Closed :=
  forall_insert (hr.mono names_subset_insert) fun n s hs =>
    (h n s hs).mono names_subset_insert

theorem Rooted.insert (h : c.Rooted) (hr : ∀ parent, r.parent = some parent → parent ∈ c.names) :
    (c.insert r).Rooted :=
  forall_insert (P := fun s => ∀ parent, s.parent = some parent → parent ∈ (c.insert r).names)
    (fun parent hp => names_subset_insert (hr parent hp))
    fun n s hs parent hp => names_subset_insert (h n s hs parent hp)

end Collection

namespace Domain

variable {d : Domain} {fs : Functions} {ds : Definitions} {plan : Plan} {c c' : Collection}

/-! ## Building -/

theorem converted_build (hc : c.Settled d.topology) {name : String} {definition : Definition}
    {p : Selection.Program} {r : Region} (h : d.build c fs name definition p = .ok r) :
    r.Converted d.topology := by
  obtain ⟨s, hs, hr⟩ := build_eq_ok h
  have hset : s.Settled d.topology := Context.settled_run (x := d.context c fs) hc hs
  have hset : (((s.setName name).setDefinition definition.selection).setParent
      definition.parent).Settled d.topology := hset.relabel ..
  obtain ⟨hsettled, hkind⟩ := Region.settled_setKind hset.kind (fun _ => hset) hr
  exact ⟨hsettled, fun hf => (Region.setKind_eq_ok hr).1 (hkind ▸ hf)⟩

theorem converted_buildAll {names : List String} (hc : c.Converted d.topology)
    (h : (d.buildAll fs ds plan names c).error? = none) :
    (d.buildAll fs ds plan names c).regions.Converted d.topology := by
  induction names generalizing c with
  | nil => exact hc
  | cons name names ih =>
    obtain ⟨definition, p, r, -, -, hb, hrest, hregions⟩ := buildAll_cons h
    rw [hregions]
    exact ih (hc.insert (converted_build hc.settled hb)) hrest

/-- What holds of the regions before a pass and of all that a definition can make holds after it. -/
theorem Passed.forall_region {names : List String} (h : Passed d fs ds plan names c c')
    {P : Region → Prop} (hkept : ∀ n r, c.get? n = some r → P r)
    (hmade : ∀ n definition r, ds.get? n = some definition →
      r.label = (n, definition.selection, definition.parent) → P r) :
    ∀ n r, c'.get? n = some r → P r := by
  intro n r hr
  by_cases hn : n ∈ names
  · obtain ⟨front, back, hsplit⟩ := List.append_of_mem hn
    obtain ⟨definition, p, s, c₁, hd, -, hb, hs, -⟩ := h.made front n back hsplit
    cases hr.symm.trans hs
    exact hmade n definition r hd (label_of_build hb)
  · exact hkept n r (h.kept n hn ▸ hr)

theorem Passed.mem_names {names : List String} (h : Passed d fs ds plan names c c') {n : String}
    (hn : n ∈ names ∨ n ∈ c.names) : n ∈ c'.names := by
  rw [h.appended]
  by_cases hc : n ∈ c.names
  · exact List.mem_append_left _ hc
  · exact List.mem_append_right _ (List.mem_filter.2 ⟨hn.resolve_right hc, by simpa using hc⟩)

section Plan

variable {o : PassOptions} (sound : plan.Sound ds c o) (passed : Passed d fs ds plan plan.order c c')
include sound passed

theorem closed_of_passed (hc : c.Closed) : c'.Closed := by
  have hnames {n : String} (hn : n ∈ ds.names ∨ n ∈ c.names) : n ∈ c'.names :=
    passed.mem_names (hn.imp_left sound.perm.mem_iff.2)
  refine passed.forall_region (fun n r hr => (hc n r hr).mono fun m hm => hnames (.inr hm)) ?_
  intro n definition r hd hlabel
  obtain ⟨p, hp, hplan⟩ := sound.programs n definition hd
  refine ⟨p, ?_, fun m hm => hnames (sound.known n p hplan m hm)⟩
  rw [show r.definition = definition.selection from congrArg (·.2.1) hlabel]
  exact hp

theorem rooted_of_passed (ho : o.checkParents = true) (hc : c.Rooted) : c'.Rooted := by
  have hnames {n : String} (hn : n ∈ ds.names ∨ n ∈ c.names) : n ∈ c'.names :=
    passed.mem_names (hn.imp_left sound.perm.mem_iff.2)
  refine passed.forall_region (P := fun r => ∀ parent, r.parent = some parent → parent ∈ c'.names)
    (fun n r hr parent hp => hnames (.inr (hc n r hr parent hp))) ?_
  intro n definition r hd hlabel parent hp
  rw [show r.parent = definition.parent from congrArg (·.2.2) hlabel] at hp
  exact hnames (sound.parents ho n definition hd parent hp)

end Plan

/-! ## One region -/

theorem single_eq_ok {checkParent : Bool} {name : String} {definition : Definition} {r : Region}
    (h : d.single fs checkParent name definition = .ok r) :
    ∃ p, Selection.parse definition.selection.toList = .ok p ∧
      (checkParent = true → d.missing? definition.parent p = none) ∧
      d.build d.regions fs name definition p = .ok r := by
  unfold single at h
  cases hn : d.regions.contains name with
  | true => simp [hn, bind, Except.bind, throw, throwThe, MonadExceptOf.throw] at h
  | false =>
    simp only [hn, Bool.false_eq_true, if_false] at h
    split at h
    · cases h
    · rename_i p hp
      split at h
      · cases h
      · rename_i hm
        exact ⟨p, hp, fun hc => by simpa [hc] using hm, h⟩

theorem mem_names_of_missing? {parent : Option String} {p : Selection.Program}
    (h : d.missing? parent p = none) {n : String} (hn : parent = some n) :
    n ∈ d.regions.names := by
  unfold missing? at h
  have := List.find?_eq_none.1 h n (List.mem_append_right _ (by simp [hn]))
  simpa [Collection.contains_iff] using this

theorem createRegion_cases (d : Domain) (fs : Functions) (checkParent : Bool) (name : String)
    (definition : Definition) :
    (∃ e, (d.createRegion fs checkParent name definition).result = .error e ∧
      (d.createRegion fs checkParent name definition).domain = d) ∨
    ∃ r, d.single fs checkParent name definition = .ok r ∧
      (d.createRegion fs checkParent name definition).result = .ok r ∧
      (d.createRegion fs checkParent name definition).domain =
        d.withRegions (d.regions.insert r) := by
  cases hs : d.single fs checkParent name definition with
  | error e =>
    unfold createRegion
    rw [hs]
    exact .inl ⟨_, rfl, rfl⟩
  | ok r =>
    rw [createRegion_of_single hs]
    split
    · exact .inl ⟨_, rfl, rfl⟩
    · exact .inr ⟨r, rfl, rfl, rfl⟩

theorem createRegions_of_error {o : PassOptions} {e : RegionError}
    (h : (d.createRegions fs ds o).result = .error e) : (d.createRegions fs ds o).domain = d := by
  unfold createRegions at h ⊢
  rw [← existing] at h ⊢
  cases hplan : ds.plan (d.existing o) o with
  | error e => simp only [hplan]
  | ok plan =>
    simp only [hplan] at h ⊢
    cases herr : (d.buildAll fs ds plan plan.order (d.existing o)).error? with
    | some e => simp only
    | none => simp [herr] at h

/-! ## One call -/

/-- What every call preserves. -/
structure Valid (d : Domain) : Prop where
  converted : d.regions.Converted d.topology
  closed : d.regions.Closed

theorem valid_reset : d.reset.Valid := ⟨Collection.converted_empty, Collection.closed_empty⟩

theorem valid_existing (hd : d.Valid) (o : PassOptions) : (d.withRegions (d.existing o)).Valid := by
  unfold existing
  split
  · exact valid_reset
  · exact hd

theorem valid_createRegion (hd : d.Valid) (checkParent : Bool) (name : String)
    (definition : Definition) : (d.createRegion fs checkParent name definition).domain.Valid := by
  obtain ⟨e, -, he⟩ | ⟨r, hr, -, he⟩ := d.createRegion_cases fs checkParent name definition
  · rw [he]
    exact hd
  · rw [he]
    obtain ⟨p, hp, -, hb⟩ := single_eq_ok hr
    have hreads : Collection.Reads d.regions.names r := by
      refine ⟨p, ?_, ?_⟩
      · rw [show r.definition = definition.selection from congrArg (·.2.1) (label_of_build hb)]
        exact hp
      · obtain ⟨s, hs, -⟩ := build_eq_ok hb
        exact fun m hm => Context.mem_names_of_run (x := d.context d.regions fs) hs hm
    exact ⟨hd.converted.insert (converted_build hd.converted.settled hb),
      hd.closed.insert hreads⟩

theorem valid_createRegions (hd : d.Valid) (o : PassOptions) :
    (d.createRegions fs ds o).domain.Valid := by
  cases hres : (d.createRegions fs ds o).result with
  | error e =>
    rw [createRegions_of_error hres]
    exact hd
  | ok c =>
    obtain ⟨plan, hplan, herr, rfl, hdomain⟩ := createRegions_eq_ok hres
    have sound := Definitions.plan_eq_ok hplan
    have passed := passed_buildAll (sound.perm.nodup_iff.2 ds.nodup) herr
    have hold := valid_existing hd o
    rw [hdomain]
    exact ⟨converted_buildAll hold.converted herr, closed_of_passed sound passed hold.closed⟩

theorem valid_next (hd : d.Valid) (call : Call) : (call.next d).Valid := by
  cases call with
  | reset => exact valid_reset
  | createRegion fs checkParent name definition => exact valid_createRegion hd ..
  | createRegions fs ds o => exact valid_createRegions hd o

theorem rooted_next (hd : d.regions.Rooted) {call : Call} (hc : call.checksParents = true) :
    (call.next d).regions.Rooted := by
  cases call with
  | reset => exact Collection.rooted_empty
  | createRegion fs checkParent name definition =>
    rw [Call.next]
    obtain ⟨e, -, he⟩ | ⟨r, hr, -, he⟩ := d.createRegion_cases fs checkParent name definition
    · rw [he]
      exact hd
    · rw [he]
      obtain ⟨p, -, hm, hb⟩ := single_eq_ok hr
      refine hd.insert fun parent hp => mem_names_of_missing? (hm hc) ?_
      rwa [show r.parent = definition.parent from congrArg (·.2.2) (label_of_build hb)] at hp
  | createRegions fs ds o =>
    rw [Call.next]
    cases hres : (d.createRegions fs ds o).result with
    | error e =>
      rw [createRegions_of_error hres]
      exact hd
    | ok c =>
      obtain ⟨plan, hplan, herr, rfl, hdomain⟩ := createRegions_eq_ok hres
      have sound := Definitions.plan_eq_ok hplan
      have passed := passed_buildAll (sound.perm.nodup_iff.2 ds.nodup) herr
      rw [hdomain]
      refine rooted_of_passed sound passed hc ?_
      unfold existing
      split
      · exact Collection.rooted_empty
      · exact hd

theorem next_of_error {call : Call} {e : RegionError} (h : call.error? d = some e) :
    call.next d = d := by
  cases call with
  | reset => cases h
  | createRegion fs checkParent name definition =>
    obtain ⟨e, -, he⟩ | ⟨r, -, hr, -⟩ := d.createRegion_cases fs checkParent name definition
    · exact he
    · rw [Call.error?, hr] at h
      cases h
  | createRegions fs ds o =>
    rw [Call.error?] at h
    split at h
    · cases h
    · rename_i e he
      exact createRegions_of_error he

theorem mesh_next (call : Call) : (call.next d).mesh = d.mesh := by
  cases call with
  | reset => rfl
  | createRegion fs checkParent name definition =>
    rw [Call.next]
    obtain ⟨e, -, he⟩ | ⟨r, -, -, he⟩ := d.createRegion_cases fs checkParent name definition
    · rw [he]
    · rw [he]
      rfl
  | createRegions fs ds o =>
    rw [Call.next]
    cases hres : (d.createRegions fs ds o).result with
    | error e => rw [createRegions_of_error hres]
    | ok c =>
      obtain ⟨-, -, -, -, hdomain⟩ := createRegions_eq_ok hres
      rw [hdomain]
      rfl

/-! ## Runs -/

/-- The domain after calls in turn. -/
def after (d : Domain) (calls : List Call) : Domain := calls.foldl (fun d call => call.next d) d

theorem after_append (front back : List Call) :
    d.after (front ++ back) = (d.after front).after back :=
  List.foldl_append

theorem valid_after (hd : d.Valid) (calls : List Call) : (d.after calls).Valid := by
  induction calls generalizing d with
  | nil => exact hd
  | cons call calls ih => exact ih (valid_next hd call)

theorem rooted_after (hd : d.regions.Rooted) {calls : List Call}
    (hc : ∀ call ∈ calls, call.checksParents = true) : (d.after calls).regions.Rooted := by
  induction calls generalizing d with
  | nil => exact hd
  | cons call calls ih =>
    obtain ⟨hcall, hcalls⟩ := List.forall_mem_cons.1 hc
    exact ih (rooted_next hd hcall) hcalls

theorem mesh_after (calls : List Call) : (d.after calls).mesh = d.mesh := by
  induction calls generalizing d with
  | nil => rfl
  | cons call calls ih => exact ih.trans (mesh_next call)

/-- What holds of a region `r` that stands under the name `n`. -/
structure Sound (d : Domain) (n : String) (r : Region) : Prop where
  name : r.name = n
  isComplete : r.isComplete = true
  /-- Completing the region again changes nothing. -/
  complete : r.complete d.topology = .ok r
  inRange : r.InRange d.topology
  face : r.kind = .face → d.topology.hasFaces = true
  /-- The text of the region parses, and all that it reads exists. -/
  definition : ∃ p, Selection.parse r.definition.toList = .ok p ∧
    ∀ m ∈ p.references, m ∈ d.regions.names

theorem Valid.sound (hd : d.Valid) (hm : d.mesh.Built) {n : String} {r : Region}
    (hr : d.regions.get? n = some r) : d.Sound n r := by
  obtain ⟨hsettled, hface⟩ := hd.converted n r hr
  have ht : d.topology.Sound := d.topology_eq ▸ Topology.sound_ofMesh hm.valid
  exact ⟨Collection.name_of_get? hr, hsettled.isComplete, hsettled.complete_eq, hsettled.inRange ht,
    hface, hd.closed n r hr⟩

/-- After any calls on a domain over a built mesh every region is sound. Parents exist if every
call checked them, and the calls that failed changed nothing. -/
theorem sound_after (name : String) {m : Mesh} (hm : m.Built) (calls : List Call) :
    (∀ n r, ((ofMesh name m).after calls).regions.get? n = some r →
      ((ofMesh name m).after calls).Sound n r) ∧
    ((∀ call ∈ calls, call.checksParents = true) →
      ∀ n r, ((ofMesh name m).after calls).regions.get? n = some r →
        ∀ parent, r.parent = some parent →
          parent ∈ ((ofMesh name m).after calls).regions.names) ∧
    ∀ front call back e, calls = front ++ call :: back →
      call.error? ((ofMesh name m).after front) = some e →
        ((ofMesh name m).after (front ++ [call])).regions =
          ((ofMesh name m).after front).regions := by
  refine ⟨fun n r hr => ?_, fun hc => ?_, fun front call back e _ he => ?_⟩
  · refine (valid_after ?_ calls).sound ?_ hr
    · exact ⟨Collection.converted_empty, Collection.closed_empty⟩
    · rw [mesh_after]
      exact hm
  · exact rooted_after Collection.rooted_empty hc
  · rw [after_append]
    exact congrArg Domain.regions (next_of_error he)

/-- A pass with a forward reference, a region next to it and a call that fails. -/
theorem sound_after_square :
    let calls : List Call :=
      [.createRegions .empty (.ofList
          [("Left", { selection := "r.All -c r.Right", parent := some "All" }),
            ("All", { selection := "all" }), ("Right", { selection := "cell 1" })]) {},
        .createRegion .empty true "Rim"
          { selection := "vertices of surface", kind := .facet, parent := some "All" },
        .createRegion .empty true "Lost" { selection := "r.Right +v r.None" }]
    let d := (ofMesh "square" (.unitSquare 2 1)).after calls
    d.regions.names = ["All", "Right", "Left", "Rim"] ∧
      ∃ r, d.regions.get? "Left" = some r ∧ d.Sound "Left" r ∧
        ∀ parent, r.parent = some parent → parent ∈ d.regions.names := by
  intro calls d
  have hnames : d.regions.names = ["All", "Right", "Left", "Rim"] := by decide +kernel
  obtain ⟨r, hr⟩ : ∃ r, d.regions.get? "Left" = some r :=
    NameTable.exists_get?_of_mem_names (show "Left" ∈ d.regions.names by simp [hnames])
  obtain ⟨hsound, hparents, -⟩ := sound_after "square" (Mesh.built_unitSquare 2 1) calls
  have hchecked : ∀ call ∈ calls, call.checksParents = true := by
    simp [calls, Call.checksParents]
  exact ⟨hnames, r, hr, hsound "Left" r hr, hparents hchecked "Left" r hr⟩

end Domain

end Subdomain

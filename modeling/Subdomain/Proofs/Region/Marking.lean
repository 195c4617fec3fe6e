import Mathlib.Data.List.Basic
import Subdomain.Mesh.Grid
import Subdomain.Proofs.Region.LastWriter
import Subdomain.Proofs.Topology.CellNumbers

/-!
# Marks

Every region of a marking writes its place over its vertices, and every part of it, its
cells in one group, writes its rank among all parts. So a vertex carries the number of
the last region that holds it and a cell that of the last part (`Marks`), whatever is
marked twice, out of range or in a group that the mesh does not have. Marking fails only
for a name that no region has (`Collection.mark_lastWriter`).
-/

namespace Subdomain

namespace Marking

/-! ## Parts -/

/-- The cells of a region in one group; the region stands at a place of a list. -/
structure Part where
  place : Nat
  region : Region
  group : Nat

namespace Part

def Holds (c : Entity) (p : Part) : Prop := p.group = c.group ∧ c ∈ p.region.cells

instance (c : Entity) : DecidablePred (Holds c) := fun _ => inferInstanceAs (Decidable (_ ∧ _))

/-- Parts come in the order of the regions and, in a region, of the groups. -/
def Before (p q : Part) : Prop := p.place < q.place ∨ p.place = q.place ∧ p.group < q.group

end Part

/-- The parts of a region in groups of the mesh. -/
def partsOf (groupCount place : Nat) (r : Region) : List Part :=
  (r.cells.groups.toList.filter (· < groupCount)).map fun ig => ⟨place, r, ig⟩

/-- The parts of regions whose places begin with `place`. -/
def partsFrom (groupCount : Nat) : Nat → List Region → List Part
  | _, [] => []
  | place, r :: rs => partsOf groupCount place r ++ partsFrom groupCount (place + 1) rs

/-- All parts with cells in groups of the mesh. -/
def parts (m : Mesh) (rs : List Region) : List Part := partsFrom m.groupCount 0 rs

section

variable {groupCount place : Nat} {r : Region} {rs : List Region} {p : Part}

theorem mem_partsOf : p ∈ partsOf groupCount place r ↔
    p.place = place ∧ p.region = r ∧ p.group < groupCount ∧ p.group ∈ r.cells.groups := by
  obtain ⟨i, s, ig⟩ := p
  simp only [partsOf, List.mem_map, List.mem_filter, decide_eq_true_eq, SortedSet.mem_toList,
    Part.mk.injEq]
  constructor
  · rintro ⟨ig, ⟨hgroups, hlt⟩, rfl, rfl, rfl⟩
    exact ⟨rfl, rfl, hlt, hgroups⟩
  · rintro ⟨rfl, rfl, hlt, hgroups⟩
    exact ⟨ig, ⟨hgroups, hlt⟩, rfl, rfl, rfl⟩

theorem mem_partsFrom : p ∈ partsFrom groupCount place rs ↔ ∃ i, p.place = place + i ∧
    rs[i]? = some p.region ∧ p.group < groupCount ∧ p.group ∈ p.region.cells.groups := by
  induction rs generalizing place with
  | nil => simp [partsFrom]
  | cons r rs ih =>
    rw [partsFrom, List.mem_append, mem_partsOf, ih, ← Nat.or_exists_add_one (p := fun i =>
      p.place = place + i ∧ (r :: rs)[i]? = some p.region ∧ _)]
    refine or_congr ?_ (exists_congr fun i => ?_)
    · rw [List.getElem?_cons_zero, Option.some.injEq, Nat.add_zero, eq_comm (a := r)]
      refine and_congr_right fun _ => and_congr_right fun hr => ?_
      rw [hr]
    · rw [List.getElem?_cons_succ, Nat.add_assoc, Nat.add_comm 1 i]

theorem pairwise_partsFrom : (partsFrom groupCount place rs).Pairwise Part.Before := by
  induction rs generalizing place with
  | nil => exact .nil
  | cons r rs ih =>
    refine List.pairwise_append.2 ⟨?_, ih, fun p hp q hq => ?_⟩
    · refine List.pairwise_map.2 ((r.cells.groups.sorted.filter _).imp fun h => ?_)
      exact .inr ⟨rfl, h⟩
    · obtain ⟨hp, -⟩ := mem_partsOf.1 hp
      obtain ⟨i, hq, -⟩ := mem_partsFrom.1 hq
      exact .inl (by omega)

end

/-! ## What a region writes -/

/-- Group by group a region writes the next number over its cells. -/
theorem markCells_groups (place : Nat) {r : Region} {igs : List Nat} {next : Int}
    {cells : List (List Int)} {out : Int × List (List Int)}
    (hout : markCells (igs.map fun ig => (ig, r.cells.ofGroup ig)) (next, cells) = out) :
    let ps := (igs.filter (· < cells.length)).map fun ig => (⟨place, r, ig⟩ : Part)
    out.1 = next + ps.length ∧ out.2.length = cells.length ∧
      ∀ c, numberIn? out.2 c = (numberIn? cells c).map fun x => overwrite (Part.Holds c) next x ps := by
  induction igs generalizing next cells with
  | nil =>
    cases hout
    simp [markCells, overwrite]
  | cons ig igs ih =>
    rw [List.map_cons, markCells] at hout
    by_cases hlt : ig < cells.length
    · rw [if_pos hlt] at hout
      obtain ⟨hnext, hlength, hnumber⟩ := ih hout
      rw [List.length_modify] at hnext hlength hnumber
      rw [List.filter_cons_of_pos (by simpa using hlt), List.map_cons]
      refine ⟨by rw [hnext, List.length_cons]; push_cast; omega, hlength, fun c => ?_⟩
      rw [hnumber, numberIn?_modify, Option.map_map]
      have hholds : (ig = c.group ∧ c.index ∈ r.cells.ofGroup ig) ↔
          (⟨place, r, ig⟩ : Part).Holds c := by
        refine and_congr_right fun hg => ?_
        rw [EntitySet.mem_ofGroup, hg]
      simp only [Function.comp_def, overwrite, hholds]
    · rw [if_neg hlt] at hout
      rw [List.filter_cons_of_neg (by simpa using hlt)]
      exact ih hout

theorem lengths_markCells {es : List (Nat × List Nat)} {next : Int} {cells : List (List Int)} :
    (markCells es (next, cells)).2.map List.length = cells.map List.length := by
  induction es generalizing next cells with
  | nil => rw [markCells]
  | cons e es ih =>
    rw [markCells]
    split
    · rw [ih]
      refine List.ext_getElem? fun i => ?_
      rw [List.getElem?_map, List.getElem?_map, List.getElem?_modify]
      cases cells[i]? with
      | none => rfl
      | some row =>
        show some (List.length (if e.1 = i then _ else _)) = _
        split
        · exact congrArg some length_setAll
        · rfl
    · exact ih

/-- Ones at the vertices of a region and zeros elsewhere. -/
def maskOf (vertexCount : Nat) (r : Region) : List Float :=
  (List.range vertexCount).map fun v => if v ∈ r.vertices then 1 else 0

/-- The marking after one more region, the one with the number `n`; `next` is the rank of its first
part. -/
def mark (vertexCount n : Nat) (next : Int) (r : Region) (k : Marking) : Marking where
  order := k.order ++ [r.name]
  vertices := setAll (n : Int) (r.vertices.toList.filter (· < vertexCount)) k.vertices
  cells := (markCells r.cells.byGroup (next, k.cells)).2
  masks := k.masks.insert r.name (maskOf vertexCount r)

section

variable {vertexCount n : Nat} {next : Int} {r : Region} {rs : List Region} {k : Marking}

theorem setAll_replicate : setAll 1 (r.vertices.toList.filter (· < vertexCount))
    (List.replicate vertexCount 0) = maskOf vertexCount r := by
  refine List.ext_getElem? fun v => ?_
  rw [getElem?_setAll, maskOf, List.getElem?_map]
  by_cases hv : v < vertexCount
  · rw [List.getElem?_replicate_of_lt hv, List.getElem?_range hv]
    simp [hv, SortedSet.mem_toList]
  · simp [hv]

theorem markFrom_cons : markFrom vertexCount n next (r :: rs) k =
    markFrom vertexCount (n + 1) (markCells r.cells.byGroup (next, k.cells)).1 rs
      (k.mark vertexCount n next r) := by
  rw [markFrom, mark, setAll_replicate]

theorem getElem?_vertices_mark {v : Nat} (hk : k.vertices.length = vertexCount) :
    (k.mark vertexCount n next r).vertices[v]? =
      k.vertices[v]?.map fun x => if v ∈ r.vertices then (n : Int) else x := by
  rw [mark, getElem?_setAll]
  cases hv : k.vertices[v]? with
  | none => rfl
  | some x =>
    have hlt := (List.getElem?_eq_some_iff.1 hv).1
    simp [SortedSet.mem_toList, hk ▸ hlt]

/-! ## What a run of regions writes -/

theorem order_markFrom :
    (markFrom vertexCount n next rs k).order = k.order ++ rs.map (·.name) := by
  induction rs generalizing n next k with
  | nil => exact (List.append_nil _).symm
  | cons r rs ih => rw [markFrom_cons, ih, mark, List.append_assoc, List.map_cons]; rfl

theorem lengths_markFrom :
    (markFrom vertexCount n next rs k).cells.map List.length = k.cells.map List.length := by
  induction rs generalizing n next k with
  | nil => rw [markFrom]
  | cons r rs ih => rw [markFrom_cons, ih, mark, lengths_markCells]

theorem getElem?_vertices_markFrom {v : Nat} (hk : k.vertices.length = vertexCount) :
    (markFrom vertexCount n next rs k).vertices[v]? =
      k.vertices[v]?.map fun x => overwrite (v ∈ ·.vertices) n x rs := by
  induction rs generalizing n next k with
  | nil => simp [markFrom, overwrite]
  | cons r rs ih =>
    have hlength : (k.mark vertexCount n next r).vertices.length = vertexCount :=
      length_setAll.trans hk
    rw [markFrom_cons, ih hlength, getElem?_vertices_mark hk, Option.map_map]
    rfl

theorem number?_markFrom {c : Entity} : (markFrom vertexCount n next rs k).number? c =
    (k.number? c).map fun x => overwrite (Part.Holds c) next x (partsFrom k.cells.length n rs) := by
  induction rs generalizing n next k with
  | nil => simp [markFrom, partsFrom, overwrite]
  | cons r rs ih =>
    obtain ⟨hnext, hlength, hnumber⟩ := markCells_groups n
      (rfl : markCells r.cells.byGroup (next, k.cells) = _)
    rw [markFrom_cons, ih, partsFrom, hnext]
    show Option.map (fun x => overwrite _ _ x (partsFrom (markCells _ _).2.length _ _))
      (numberIn? (markCells _ _).2 c) = _
    rw [hlength, hnumber, Option.map_map]
    simp only [Function.comp_def, overwrite_append]
    rfl

theorem masks_markFrom (hrs : ∀ r ∈ rs, ∀ s ∈ rs, r.name = s.name → r = s) {name : String}
    {mask : List Float} : (markFrom vertexCount n next rs k).masks.get? name = some mask ↔
      (∃ r ∈ rs, r.name = name ∧ mask = maskOf vertexCount r) ∨
        (∀ r ∈ rs, r.name ≠ name) ∧ k.masks.get? name = some mask := by
  induction rs generalizing n next k with
  | nil => simp [markFrom]
  | cons r rs ih =>
    have hrs' : ∀ s ∈ rs, ∀ t ∈ rs, s.name = t.name → s = t := fun s hs t ht =>
      hrs s (List.mem_cons_of_mem _ hs) t (List.mem_cons_of_mem _ ht)
    have hsame : ∀ s ∈ rs, s.name = r.name → s = r := fun s hs =>
      hrs s (List.mem_cons_of_mem _ hs) r List.mem_cons_self
    have hmark : (k.mark vertexCount n next r).masks.get? name =
        if name = r.name then some (maskOf vertexCount r) else k.masks.get? name :=
      NameTable.get?_insert
    rw [markFrom_cons, ih hrs', hmark, List.forall_mem_cons, List.exists_mem_cons_iff]
    by_cases hname : r.name = name
    · subst hname
      rw [if_pos rfl, Option.some.injEq, eq_comm (a := maskOf _ _)]
      constructor
      · rintro (⟨s, hs, h⟩ | ⟨-, h⟩)
        · exact .inl (.inr ⟨s, hs, h⟩)
        · exact .inl (.inl ⟨rfl, h⟩)
      · rintro ((⟨-, h⟩ | h) | ⟨⟨h, -⟩, -⟩)
        · by_cases hlater : ∃ s ∈ rs, s.name = r.name
          · obtain ⟨s, hs, hsr⟩ := hlater
            exact .inl ⟨s, hs, hsr, by rw [hsame s hs hsr, h]⟩
          · exact .inr ⟨fun s hs hsr => hlater ⟨s, hs, hsr⟩, h⟩
        · exact .inl h
        · exact absurd rfl h
    · rw [if_neg fun h => hname h.symm]
      simp [hname]

end

/-! ## The marks of a mesh -/

section

variable {m : Mesh} {rs : List Region} {c : Entity}

theorem length_tagsOf : (tagsOf m).length = m.vertexCount := by
  simp only [tagsOf, List.length_append, List.length_take, List.length_replicate]
  omega

theorem getElem?_tagsOf {v : Nat} :
    (tagsOf m)[v]? = if v < m.vertexCount then some (m.tags[v]?.getD 0) else none := by
  unfold tagsOf
  by_cases hv : v < m.vertexCount
  · rw [if_pos hv]
    by_cases htag : v < m.tags.length
    · rw [List.getElem?_append_left (by rw [List.length_take]; omega), List.getElem?_take_of_lt hv,
        List.getElem?_eq_getElem htag, Option.getD_some]
    · rw [List.getElem?_append_right (by simp; omega), List.getElem?_replicate_of_lt (by simp; omega),
        List.getElem?_eq_none (by omega), Option.getD_none]
  · rw [if_neg hv, List.getElem?_eq_none]
    rw [← tagsOf, length_tagsOf]
    omega

theorem number?_start {x : Int} : (start m).number? c = some x ↔
    ∃ g, m.groups[c.group]? = some g ∧ c.index < g.cellCount ∧ g.material = x := by
  simp only [number?, numberIn?, start, List.getElem?_map]
  cases m.groups[c.group]? with
  | none => simp
  | some g => simp [List.getElem?_replicate]

/-- The part with the cell `c` that is the last to write. -/
def Owns (m : Mesh) (rs : List Region) (c : Entity) (p : Part) : Prop :=
  ∃ i, (parts m rs)[i]? = some p ∧ LastAt (Part.Holds c) (parts m rs) i

/-- A marking of the mesh by the regions in their order: the last one counts. -/
structure Marks (m : Mesh) (rs : List Region) (k : Marking) : Prop where
  order : k.order = rs.map (·.name)
  vertices : ∀ v x, k.vertices[v]? = some x ↔
    v < m.vertexCount ∧ LeftBy (v ∈ ·.vertices) rs (m.tags[v]?.getD 0) x
  mem_parts : ∀ p, p ∈ parts m rs ↔ rs[p.place]? = some p.region ∧ p.group < m.groupCount ∧
    p.group ∈ p.region.cells.groups
  ranked : (parts m rs).Pairwise Part.Before
  rows : k.cells.map List.length = m.groups.map (·.cellCount)
  cells : ∀ c x, k.number? c = some x ↔ ∃ g, m.groups[c.group]? = some g ∧
    c.index < g.cellCount ∧ LeftBy (Part.Holds c) (parts m rs) g.material x
  distinct : ∀ c d p q, m.HasCell c → m.HasCell d → Owns m rs c p → Owns m rs d q →
    (k.number? c = k.number? d ↔ p = q)
  masks : ∀ name mask, k.masks.get? name = some mask ↔
    ∃ r ∈ rs, r.name = name ∧ mask = maskOf m.vertexCount r

theorem mem_parts {p : Part} : p ∈ parts m rs ↔ rs[p.place]? = some p.region ∧
    p.group < m.groupCount ∧ p.group ∈ p.region.cells.groups := by
  rw [parts, mem_partsFrom]
  simp only [Nat.zero_add, exists_eq_left']

theorem nodup_parts : (parts m rs).Nodup :=
  pairwise_partsFrom.imp fun h e => by
    subst e
    obtain h | ⟨-, h⟩ := h <;> exact absurd h (Nat.lt_irrefl _)

theorem marks_markFrom (hrs : ∀ r ∈ rs, ∀ s ∈ rs, r.name = s.name → r = s) :
    Marks m rs (markFrom m.vertexCount 0 0 rs (start m)) := by
  have hcells : ∀ c x, (markFrom m.vertexCount 0 0 rs (start m)).number? c = some x ↔
      ∃ g, m.groups[c.group]? = some g ∧ c.index < g.cellCount ∧
        LeftBy (Part.Holds c) (parts m rs) g.material x := fun c x => by
    have hlength : (start m).cells.length = m.groupCount := List.length_map ..
    rw [number?_markFrom, hlength, Option.map_eq_some_iff]
    simp only [number?_start, leftBy_overwrite]
    constructor
    · rintro ⟨-, ⟨g, hg, hlt, rfl⟩, hx⟩
      exact ⟨g, hg, hlt, hx⟩
    · rintro ⟨g, hg, hlt, hx⟩
      exact ⟨_, ⟨g, hg, hlt, rfl⟩, hx⟩
  have hnumber {c : Entity} {i : Nat} (hc : m.HasCell c)
      (hi : LastAt (Part.Holds c) (parts m rs) i) :
      (markFrom m.vertexCount 0 0 rs (start m)).number? c = some (i : Int) := by
    obtain ⟨g, hg, hlt⟩ := hc
    exact (hcells c i).2 ⟨g, hg, hlt, .inl ⟨i, hi, rfl⟩⟩
  exact {
    order := order_markFrom
    vertices := fun v x => by
      rw [getElem?_vertices_markFrom length_tagsOf]
      show (tagsOf m)[v]?.map _ = _ ↔ _
      rw [getElem?_tagsOf, leftBy_overwrite]
      by_cases hv : v < m.vertexCount
      · simp [hv]
      · simp [hv]
    mem_parts := fun _ => mem_parts
    ranked := pairwise_partsFrom
    rows := by
      rw [lengths_markFrom, start, List.map_map]
      exact List.map_congr_left fun g _ => List.length_replicate
    cells := hcells
    distinct := by
      rintro c d p q hc hd ⟨i, hp, hi⟩ ⟨j, hq, hj⟩
      rw [hnumber hc hi, hnumber hd hj, Option.some.injEq, Int.natCast_inj]
      constructor
      · rintro rfl
        exact Option.some.inj (hp.symm.trans hq)
      · rintro rfl
        exact (List.getElem?_inj (List.getElem?_eq_some_iff.1 hp).1 nodup_parts).1 (hp.trans hq.symm)
    masks := fun name mask => by
      rw [masks_markFrom hrs]
      show _ ∨ _ ∧ NameTable.empty.get? name = _ ↔ _
      simp [NameTable.get?, NameTable.empty] }

/-- The first whole region of `rs`, if there is one, is put in front of the others. -/
def WholeFirst (vertexCount : Nat) (rs rs' : List Region) : Prop :=
  ((∀ r ∈ rs, r.isWhole vertexCount = false) ∧ rs' = rs) ∨
  ∃ before whole after, rs = before ++ whole :: after ∧
    (∀ r ∈ before, r.isWhole vertexCount = false) ∧ whole.isWhole vertexCount = true ∧
    rs' = whole :: (before ++ after)

theorem wholeFirst_spec (vertexCount : Nat) (rs : List Region) :
    WholeFirst vertexCount rs (wholeFirst vertexCount rs) := by
  unfold wholeFirst
  split
  · rename_i i hi
    obtain ⟨hlt, hwhole, hbefore⟩ := List.findIdx?_eq_some_iff_getElem.1 hi
    refine .inr ⟨rs.take i, rs[i], rs.drop (i + 1), ?_, fun r hr => ?_, hwhole, ?_⟩
    · rw [List.getElem_cons_drop, List.take_append_drop]
    · obtain ⟨j, hj, rfl⟩ := List.mem_take_iff_getElem.1 hr
      exact Bool.not_eq_true _ ▸ hbefore j (by omega)
    · rw [List.getElem?_eq_getElem hlt, List.eraseIdx_eq_take_drop_succ]
      rfl
  · rename_i hnone
    exact .inl ⟨fun r hr => List.findIdx?_eq_none_iff.1 hnone r hr, rfl⟩

theorem WholeFirst.perm {vertexCount : Nat} {rs' : List Region}
    (h : WholeFirst vertexCount rs rs') : rs'.Perm rs := by
  obtain ⟨-, rfl⟩ | ⟨before, whole, after, rfl, -, -, rfl⟩ := h
  · exact .refl _
  · exact List.perm_middle.symm

end

end Marking

namespace Collection

variable {c : Collection} {names : Option (List String)} {rs : List Region}

/-- The first of the names that no region has. -/
def FirstUnknown (c : Collection) (names : Option (List String)) (n : String) : Prop :=
  ∃ before after, names = some (before ++ n :: after) ∧ (∀ s ∈ before, s ∈ c.names) ∧ n ∉ c.names

/-- The regions with the names, in their order and as often as they are named; all regions
without names. -/
def Requested (c : Collection) (names : Option (List String)) (rs : List Region) : Prop :=
  match names with
  | none => rs = c.regions
  | some names => names.map c.get? = rs.map some

theorem get?_of_requested (h : c.Requested names rs) {r : Region} (hr : r ∈ rs) :
    c.get? r.name = some r := by
  cases names with
  | none =>
    obtain rfl : rs = c.regions := h
    obtain ⟨⟨n, r⟩, he, rfl⟩ := List.mem_map.1 hr
    have hn : c.get? n = some r := NameTable.get?_eq_some_iff.2 he
    rwa [name_of_get? hn]
  | some names =>
    have hmem : some r ∈ names.map c.get? :=
      (show names.map c.get? = rs.map some from h) ▸ List.mem_map_of_mem hr
    obtain ⟨n, -, hn⟩ := List.mem_map.1 hmem
    rwa [name_of_get? hn]

theorem select_cases (c : Collection) (names : Option (List String)) :
    (∃ n, c.FirstUnknown names n ∧ c.select names = .error (.regionNotFound n)) ∨
      ∃ rs, c.Requested names rs ∧ c.select names = .ok rs := by
  cases names with
  | none => exact .inr ⟨c.regions, rfl, rfl⟩
  | some names =>
    show (∃ n, _ ∧ names.mapM c.get = _) ∨ ∃ rs, _ ∧ names.mapM c.get = _
    induction names with
    | nil => exact .inr ⟨[], rfl, rfl⟩
    | cons n names ih =>
      rw [List.mapM_cons]
      cases hn : c.get? n with
      | none =>
        refine .inl ⟨n, ⟨[], names, rfl, nofun, NameTable.get?_eq_none_iff.1 hn⟩, ?_⟩
        rw [get, hn]
        rfl
      | some r =>
        have hknown : n ∈ c.names := NameTable.mem_names_of_get? hn
        rw [get_eq_ok_iff.2 hn]
        obtain ⟨u, ⟨before, after, hsome, hbefore, hu⟩, herror⟩ | ⟨rs, hrs, hok⟩ := ih
        · refine .inl ⟨u, ⟨n :: before, after, ?_, List.forall_mem_cons.2 ⟨hknown, hbefore⟩, hu⟩, ?_⟩
          · rw [Option.some.inj hsome]
            rfl
          · rw [herror]
            rfl
        · refine .inr ⟨r :: rs, ?_, ?_⟩
          · show c.get? n :: names.map c.get? = _
            rw [hn, (show names.map c.get? = rs.map some from hrs)]
            rfl
          · rw [hok]
            rfl

/-- Marking fails with the first name that no region has and else marks by the requested regions,
the first whole one in front: each vertex and each cell carries the number of the last region and
the last part that hold it. -/
theorem mark_lastWriter (c : Collection) (m : Mesh) (names : Option (List String)) :
    (∃ n, c.FirstUnknown names n ∧ c.mark m names = .error (.regionNotFound n)) ∨
    ∃ rs rs' k, c.Requested names rs ∧ Marking.WholeFirst m.vertexCount rs rs' ∧
      c.mark m names = .ok k ∧ Marking.Marks m rs' k := by
  obtain ⟨n, hn, herror⟩ | ⟨rs, hrs, hok⟩ := c.select_cases names
  · refine .inl ⟨n, hn, ?_⟩
    rw [mark, herror]
    rfl
  · have hfirst := Marking.wholeFirst_spec m.vertexCount rs
    refine .inr ⟨rs, _, _, hrs, hfirst, by rw [mark, hok]; rfl, Marking.marks_markFrom ?_⟩
    intro r hr s hs hname
    have hr := get?_of_requested hrs (hfirst.perm.mem_iff.1 hr)
    have hs := get?_of_requested hrs (hfirst.perm.mem_iff.1 hs)
    exact Option.some.inj (hr.symm.trans (hname ▸ hs))

/-- The whole region comes first, so the corner keeps its number. -/
example : let corner := Region.ofVertices "corner" (.ofList [0])
    let all := Region.ofVertices "all" (.ofList [0, 1, 2, 3])
    let c := (empty.insert corner).insert all
    (c.mark (.unitSquare 1 1) none).toOption.map (fun k => (k.order, k.vertices)) =
      some (["all", "corner"], [1, 0, 0, 0]) := by
  decide +kernel

end Collection

end Subdomain

import Subdomain.Proofs.Domain.Facets
import Subdomain.Proofs.Topology.CellNumbers

/-!
# Groups without cells

A group may come without cells. Its tables are empty, so that no facet is used once more
(`facetUses_append`), but the highest dimension is taken over the groups and not over the
cells (`topDim_pushGroup`). If the new group is of a higher dimension than all others, every
cell of the mesh is below the highest dimension, and no facet is on the surface any more
(`surface_pushGroup_of_empty`).
-/

namespace Subdomain

namespace Topology

variable {m : Mesh} {g : ElementGroup}

/-! ## One more group -/

theorem groups_pushGroup :
    (ofMesh (m.pushGroup g)).groups = (ofMesh m).groups ++ [.ofGroup m.groupCount g m.cellCount] := by
  have hfirst {ig : Nat} (h : ig ≤ m.groupCount) :
      (m.pushGroup g).firstCell ig = m.firstCell ig := by
    unfold Mesh.firstCell Mesh.pushGroup
    rw [List.take_append_of_le_length h]
  have hcount : m.firstCell m.groupCount = m.cellCount := by
    unfold Mesh.firstCell Mesh.groupCount
    rw [List.take_length]
    rfl
  have hgroups : (m.pushGroup g).groups = m.groups ++ [g] := rfl
  rw [groups_ofMesh, groups_ofMesh, hgroups, List.mapIdx_concat]
  congr 1
  · refine List.mapIdx_eq_mapIdx_iff.2 fun ig hig => ?_
    rw [hfirst (Nat.le_of_lt hig)]
  · rw [← hcount, ← hfirst (Nat.le_refl _)]
    rfl

theorem topDim_pushGroup :
    (ofMesh (m.pushGroup g)).topDim = max (ofMesh m).topDim g.element.dim := by
  have htop (n : Mesh) :
      (ofMesh n).topDim = ((ofMesh n).groups.map (·.element.dim)).foldl max 0 := rfl
  rw [htop, htop, groups_pushGroup, List.map_append, List.foldl_append]
  rfl

/-! ## A group without cells -/

theorem addGroup_empty_iff {material : Int} {element : Element} :
    m.addGroup ⟨material, element, []⟩ =
      (.ok m.groupCount, m.pushGroup ⟨material, element, []⟩) ↔
      material ∉ m.groups.map (·.material) := by
  rw [Mesh.addGroup_eq_ok_iff, and_iff_left ⟨rfl, rfl⟩, Mesh.groupError?_eq_none_iff]
  simp

/-- A group whose facets are used nowhere adds no use to a facet. -/
theorem facetUses_append {gs : List GroupTopology} {e : GroupTopology}
    (h : ∀ vs, e.facets.uses vs = 0) (dim : Nat) : facetUses (gs ++ [e]) dim = facetUses gs dim := by
  funext vs
  have hrest : facetUses [e] dim vs = 0 := by
    unfold facetUses
    by_cases hdim : e.element.dim = dim <;> simp [hdim, h]
  unfold facetUses at *
  rw [List.filter_append, List.map_append, total_append, hrest, Nat.add_zero]

theorem onceUsed_of_dim_lt {gs : List GroupTopology} {e : GroupTopology} {dim : Nat}
    (h : e.element.dim < dim) : onceUsed gs dim e = [] :=
  if_neg (Nat.ne_of_lt h)

theorem onceUsed_of_size {gs : List GroupTopology} {e : GroupTopology} {dim : Nat}
    (h : e.facets.size = 0) : onceUsed gs dim e = [] := by
  unfold onceUsed
  rw [h]
  split <;> rfl

variable {material : Int} {element : Element}

/-- The facets of the groups that are there keep their uses, but only those of the highest
dimension are looked at. -/
theorem surface_pushGroup_of_empty :
    (ofMesh (m.pushGroup ⟨material, element, []⟩)).surface =
      (if element.dim ≤ (ofMesh m).topDim then (ofMesh m).surface
        else (ofMesh m).surface.map fun _ => []) ++ [[]] := by
  let e : GroupTopology := .ofGroup m.groupCount ⟨material, element, []⟩ m.cellCount
  have hcells : (⟨material, element, []⟩ : ElementGroup).cells = [] := by
    rw [← List.length_eq_zero_iff, ElementGroup.cells, length_pieces]
    exact Nat.zero_div _
  have huses : ∀ vs, e.facets.uses vs = 0 := fun vs => by
    refine (EntityTable.uses_ofCells vs).trans ?_
    rw [hcells]
    rfl
  have hsize : e.facets.size = 0 := by
    refine (congrArg List.length (EntityTable.entities_ofCells _ _)).trans ?_
    rw [hcells]
    rfl
  have hsurface (n : Mesh) :
      (ofMesh n).surface = (ofMesh n).groups.map (onceUsed (ofMesh n).groups (ofMesh n).topDim) := rfl
  have hpushed (dim : Nat) :
      onceUsed ((ofMesh m).groups ++ [e]) dim = onceUsed (ofMesh m).groups dim := by
    funext g
    unfold onceUsed
    rw [facetUses_append huses]
  have hdim : ∀ g ∈ (ofMesh m).groups, g.element.dim ≤ (ofMesh m).topDim := fun g hg =>
    le_foldl_max.2 _ (List.mem_map.2 ⟨g, hg, rfl⟩)
  rw [hsurface, groups_pushGroup, hpushed, topDim_pushGroup, List.map_append, List.map_singleton,
    onceUsed_of_size hsize]
  congr 1
  split
  · rename_i hle
    rw [Nat.max_eq_left hle, hsurface]
  · rename_i hlt
    have hlt : (ofMesh m).topDim < element.dim := Nat.lt_of_not_le hlt
    rw [Nat.max_eq_right (Nat.le_of_lt hlt), hsurface, List.map_map]
    exact List.map_congr_left fun g hg => onceUsed_of_dim_lt (Nat.lt_of_le_of_lt (hdim g hg) hlt)

theorem length_surface : (ofMesh m).surface.length = m.groupCount := by
  rw [← groupCount_ofMesh]
  exact List.length_map _

theorem surface_kept_iff :
    (∀ ig < m.groupCount, (ofMesh (m.pushGroup ⟨material, element, []⟩)).surface[ig]? =
        (ofMesh m).surface[ig]?) ↔
      element.dim ≤ (ofMesh m).topDim ∨ ∀ ids ∈ (ofMesh m).surface, ids = [] := by
  have hfront {l : List (List Nat)} (hl : l.length = m.groupCount) {ig : Nat}
      (hig : ig < m.groupCount) : (l ++ [[]])[ig]? = l[ig]? :=
    List.getElem?_append_left (hl ▸ hig)
  rw [surface_pushGroup_of_empty]
  split
  · rename_i hle
    exact iff_of_true (fun ig hig => hfront length_surface hig) (.inl hle)
  · rename_i hlt
    rw [or_iff_right hlt]
    have hlength : ((ofMesh m).surface.map fun _ => ([] : List Nat)).length = m.groupCount := by
      rw [List.length_map, length_surface]
    constructor
    · intro h ids hids
      obtain ⟨ig, hig⟩ := List.mem_iff_getElem?.1 hids
      have hlt : ig < m.groupCount := length_surface ▸ (List.getElem?_eq_some_iff.1 hig).1
      have hkept := h ig hlt
      rw [hfront hlength hlt, List.getElem?_map, hig] at hkept
      exact (Option.some.inj hkept).symm
    · intro h ig hig
      rw [hfront hlength hig, List.getElem?_map]
      cases hids : (ofMesh m).surface[ig]? with
      | none => rfl
      | some ids => rw [Option.map_some, h ids (List.mem_of_getElem? hids)]

theorem topDim_eq_zero_iff : (ofMesh m).topDim = 0 ↔ m.groups = [] := by
  constructor
  · intro h
    refine List.eq_nil_iff_forall_not_mem.2 fun g hg => ?_
    have hle := dim_le_topDim hg
    have hpos : 0 < g.element.dim := by cases g.element <;> decide
    omega
  · intro h
    have hnil : (ofMesh m).groups = [] := by rw [groups_ofMesh, h, List.mapIdx_nil]
    change ((ofMesh m).groups.map (·.element.dim)).foldl max 0 = 0
    rw [hnil]
    rfl

end Topology

/-! ## Selecting the surface -/

namespace Context

open Subdomain.Topology

variable {x : Context} {m : Mesh}

theorem run_push {l : Selection.Leaf} : x.run [.push l] = x.evalLeaf l := by
  rw [run, runFrom_push]
  cases x.evalLeaf l <;> rfl

theorem exists_run_surface (hx : x.topology = .ofMesh m) (h : m.groups ≠ []) :
    ∃ r, x.run [.push .surface] = .ok r ∧ r.entities .facet = x.surface := by
  have htop : 0 < (ofMesh m).topDim := Nat.pos_of_ne_zero (mt topDim_eq_zero_iff.1 h)
  obtain ⟨r, hr, -, -, hfacets⟩ := exists_surface hx htop
  exact ⟨r, run_push.trans hr, hfacets⟩

theorem run_surface_iff (hx : x.topology = .ofMesh m) :
    (∃ r, x.run [.push .surface] = .ok r) ↔ m.groups ≠ [] := by
  constructor
  · rintro ⟨r, hr⟩ h
    rw [run_push, evalLeaf, hx, if_pos (topDim_eq_zero_iff.2 h)] at hr
    cases hr
  · intro h
    obtain ⟨r, hr, -⟩ := exists_run_surface hx h
    exact ⟨r, hr⟩

theorem facets_of_run_surface {r : Region} (hx : x.topology = .ofMesh m)
    (hr : x.run [.push .surface] = .ok r) : r.entities .facet = x.surface := by
  obtain ⟨s, hs, hfacets⟩ := exists_run_surface hx ((run_surface_iff hx).1 ⟨r, hr⟩)
  cases hr.symm.trans hs
  exact hfacets

theorem surface_eq_empty_iff : x.surface = ∅ ↔ ∀ ids ∈ x.topology.surface, ids = [] := by
  constructor
  · intro h ids hids
    obtain ⟨ig, hig⟩ := List.mem_iff_getElem?.1 hids
    refine List.eq_nil_iff_forall_not_mem.2 fun i hi => ?_
    have hmem : ⟨ig, i⟩ ∈ x.surface := mem_surface.2 ⟨ids, hig, hi⟩
    rw [h] at hmem
    exact SortedSet.not_mem_empty _ hmem
  · intro h
    ext e
    refine iff_of_false (fun he => ?_) (SortedSet.not_mem_empty e)
    obtain ⟨ids, hids, hi⟩ := mem_surface.1 he
    rw [h ids (List.mem_of_getElem? hids)] at hi
    exact List.not_mem_nil hi

/-- Lists of no facets behind the others select nothing. -/
theorem surface_congr {y : Context} (h : y.topology.surface = x.topology.surface ++ [[]]) :
    y.surface = x.surface := by
  ext e
  rw [mem_surface, mem_surface, h]
  constructor
  · rintro ⟨ids, hids, hi⟩
    rcases Nat.lt_or_ge e.group x.topology.surface.length with hlt | hle
    · rw [List.getElem?_append_left hlt] at hids
      exact ⟨ids, hids, hi⟩
    · rw [List.getElem?_append_right hle, List.getElem?_singleton] at hids
      split at hids
      · cases hids
        cases hi
      · cases hids
  · rintro ⟨ids, hids, hi⟩
    have hlt := (List.getElem?_eq_some_iff.1 hids).1
    exact ⟨ids, (List.getElem?_append_left hlt).trans hids, hi⟩

end Context

/-- A mesh with its topology, next to some regions and functions. -/
def Mesh.context (m : Mesh) (c : Collection) (fs : Functions) : Context := ⟨m, .ofMesh m, c, fs⟩

namespace Topology

variable {m : Mesh} {material : Int} {element : Element} {c : Collection} {fs : Functions}

theorem surface_context_pushGroup :
    ((m.pushGroup ⟨material, element, []⟩).context c fs).surface =
      if element.dim ≤ (ofMesh m).topDim then (m.context c fs).surface else ∅ := by
  have hsurface : (ofMesh (m.pushGroup ⟨material, element, []⟩)).surface = _ :=
    surface_pushGroup_of_empty
  split
  · rename_i hle
    rw [if_pos hle] at hsurface
    exact Context.surface_congr hsurface
  · rename_i hlt
    rw [if_neg hlt] at hsurface
    refine Context.surface_eq_empty_iff.2 fun ids hids => ?_
    change ids ∈ (ofMesh (m.pushGroup ⟨material, element, []⟩)).surface at hids
    rw [hsurface, List.mem_append, List.mem_map, List.mem_singleton] at hids
    obtain ⟨_, -, rfl⟩ | rfl := hids <;> rfl

theorem surface_context_eq_iff :
    ((m.pushGroup ⟨material, element, []⟩).context c fs).surface = (m.context c fs).surface ↔
      element.dim ≤ (ofMesh m).topDim ∨ ∀ ids ∈ (ofMesh m).surface, ids = [] := by
  have hempty : (m.context c fs).surface = ∅ ↔ ∀ ids ∈ (ofMesh m).surface, ids = [] :=
    Context.surface_eq_empty_iff
  rw [surface_context_pushGroup]
  split
  · rename_i hle
    exact iff_of_true rfl (.inl hle)
  · rename_i hlt
    rw [or_iff_right hlt, ← hempty, eq_comm]

/-- A group without cells takes the facets of the other groups off the surface just if it is of a
higher dimension than they are, and there are some. Otherwise the surface stays as it is. So it is
with what a selection of the surface gives, which is an error as long as there is no group. -/
theorem surface_emptyGroup (m : Mesh) (material : Int) (element : Element) :
    let g : ElementGroup := ⟨material, element, []⟩
    let t := ofMesh m
    let t' := ofMesh (m.pushGroup g)
    let keeps := element.dim ≤ t.topDim ∨ ∀ ids ∈ t.surface, ids = []
    (m.addGroup g = (.ok m.groupCount, m.pushGroup g) ↔ material ∉ m.groups.map (·.material)) ∧
    t'.surface =
      (if element.dim ≤ t.topDim then t.surface else t.surface.map fun _ => []) ++ [[]] ∧
    ((∀ ig < m.groupCount, t'.surface[ig]? = t.surface[ig]?) ↔ keeps) ∧
    ∃ p, Selection.parse "vertices of surface".toList = .ok p ∧ ∀ c fs,
      ((∃ r, (m.context c fs).run p = .ok r) ↔ m.groups ≠ []) ∧
      (∃ r', ((m.pushGroup g).context c fs).run p = .ok r' ∧
        r'.entities .facet = if element.dim ≤ t.topDim then (m.context c fs).surface else ∅) ∧
      ((∃ r r', (m.context c fs).run p = .ok r ∧ ((m.pushGroup g).context c fs).run p = .ok r' ∧
        r'.entities .facet = r.entities .facet) ↔ m.groups ≠ [] ∧ keeps) := by
  intro g t t' keeps
  refine ⟨addGroup_empty_iff, surface_pushGroup_of_empty, surface_kept_iff, _,
    Domain.parse_surface, fun c fs => ?_⟩
  have hgroups : (m.pushGroup g).groups ≠ [] := List.concat_ne_nil g m.groups
  obtain ⟨r', hr', hfacets'⟩ :=
    Context.exists_run_surface (x := (m.pushGroup g).context c fs) rfl hgroups
  refine ⟨Context.run_surface_iff rfl, ⟨r', hr', hfacets'.trans surface_context_pushGroup⟩, ?_, ?_⟩
  · rintro ⟨r, s, hr, hs, hsame⟩
    rw [Context.facets_of_run_surface rfl hr, Context.facets_of_run_surface rfl hs] at hsame
    exact ⟨(Context.run_surface_iff rfl).1 ⟨r, hr⟩, surface_context_eq_iff.1 hsame⟩
  · rintro ⟨hgroups, hkeeps⟩
    obtain ⟨r, hr, hfacets⟩ :=
      Context.exists_run_surface (x := m.context c fs) rfl hgroups
    refine ⟨r, r', hr, hr', ?_⟩
    rw [hfacets, hfacets']
    exact surface_context_eq_iff.2 hkeeps

/-- A shell of one square loses its four edges to a group of no hexahedra. -/
theorem shell_losesSurface :
    let m := Mesh.ofGrid "shell" 3 .quadrilateral [⟨0, 0, 0⟩, ⟨1, 0, 0⟩, ⟨1, 1, 0⟩, ⟨0, 1, 0⟩]
      [[0, 1, 2, 3]]
    let m' := m.pushGroup ⟨2, .hexahedron, []⟩
    m.Built ∧ m.addGroup ⟨2, .hexahedron, []⟩ = (.ok 1, m') ∧
      (∀ g ∈ m'.groups, g.cells ≠ [] → g.element.dim = 2) ∧
      (∀ vs ∈ [[0, 1], [1, 2], [2, 3], [0, 3]], ∃! p, m'.FacetAt 2 vs p) ∧
      (ofMesh m).surface = [[0, 1, 2, 3]] ∧ (ofMesh m').surface = [[], []] ∧
      ∃ p r r', Selection.parse "vertices of surface".toList = .ok p ∧
        (m.context .empty .empty).run p = .ok r ∧ (m'.context .empty .empty).run p = .ok r' ∧
        r.vertices.toList = [0, 1, 2, 3] ∧ r'.isEmpty = true := by
  intro m m'
  have hbuilt : m.Built := Mesh.built_ofGrid (by decide) (by decide) (by decide)
  have honce : ∀ vs ∈ [[0, 1], [1, 2], [2, 3], [0, 3]], facetUses (ofMesh m').groups 2 vs = 1 := by
    decide +kernel
  obtain ⟨r, hr, hbefore⟩ : ∃ r, (m.context .empty .empty).run [.push .surface] = .ok r ∧
      r.vertices.toList = [0, 1, 2, 3] := exists_ok_of_toOption (by decide +kernel)
  obtain ⟨r', hr', hafter⟩ : ∃ r', (m'.context .empty .empty).run [.push .surface] = .ok r' ∧
      r'.isEmpty = true := exists_ok_of_toOption (by decide +kernel)
  refine ⟨hbuilt, addGroup_empty_iff.2 (by decide), by decide, fun vs hvs => ?_, by decide +kernel,
    by decide +kernel, _, r, r', Domain.parse_surface, hr, hr', hbefore, hafter⟩
  exact (tallies_facetUses 2 vs).one.1 (honce vs hvs)

end Topology

end Subdomain

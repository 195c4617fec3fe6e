import Subdomain.Proofs.Domain.Pass
import Subdomain.Proofs.Evaluation.Faults
import Subdomain.Proofs.Selection.Expressions
import Subdomain.Proofs.Topology.Surface

/-!
# Facets as faces and edges

The facets of solid cells are their faces, and those of plane cells their edges, under
the same numbers. A conversion to that kind starts from the set that was derived for it,
the entities all of whose vertices belong to the region. So it keeps the vertices and the
facets of a region and gains the facets that these cover (`facets_carryOver`). On the
surface of a domain that can be a facet between two cells (`not_keepsFacets`).
-/

namespace Subdomain

namespace Element

variable {e : Element}

theorem positions_face_of_dim (h : e.dim = 3) :
    e.positions .face = e.positions .facet ∧ e.positions .face ≠ [] := by
  cases e with
  | line | triangle | quadrilateral => cases h
  | tetrahedron | hexahedron => exact ⟨rfl, List.cons_ne_nil _ _⟩

theorem positions_edge_of_dim (h : e.dim = 2) : e.positions .edge = e.positions .facet := by
  cases e with
  | line | tetrahedron | hexahedron => cases h
  | triangle | quadrilateral => rfl

end Element

theorem exists_pos_of_total_pos {l : List Nat} (h : 0 < total l) : ∃ n ∈ l, 0 < n := by
  induction l with
  | nil => cases h
  | cons n l ih =>
    by_cases hn : 0 < n
    · exact ⟨n, List.mem_cons_self, hn⟩
    · rw [total_cons] at h
      obtain ⟨i, hi, hpos⟩ := ih (by omega)
      exact ⟨i, List.mem_cons_of_mem _ hi, hpos⟩

namespace Mesh

variable {m : Mesh} {k : Kind} {e : Entity} {v : Nat} {facets : EntitySet}

/-- Every group is solid and `k` the kind of faces, or every group is plane and `k` that of
edges. -/
def FacetsAre (m : Mesh) (k : Kind) : Prop :=
  (k = .face ∧ ∀ g ∈ m.groups, g.element.dim = 3) ∨
    (k = .edge ∧ ∀ g ∈ m.groups, g.element.dim = 2)

/-- All vertices of a facet are vertices of facets of the set. -/
def Covers (m : Mesh) (facets : EntitySet) (e : Entity) : Prop :=
  ∃ vs, m.vertices? .facet e = some vs ∧ ∀ v ∈ vs, ∃ b ∈ facets, m.HasVertex .facet b v

/-- The region is what a set of facets becomes as entities of kind `k`. -/
structure CarriesOver (m : Mesh) (k : Kind) (facets : EntitySet) (s : Region) : Prop where
  kind : s.kind = k
  vertices : ∀ v, v ∈ s.vertices ↔ ∃ e ∈ facets, m.HasVertex .facet e v
  entities : ∀ e, e ∈ s.entities k ↔ m.Covers facets e
  kept : ∀ e ∈ facets, e ∈ s.entities k
  exact : s.entities k = facets ↔ ∀ e, m.Covers facets e → e ∈ facets

theorem exists_group_of_cellCount_pos (hc : 0 < m.cellCount) :
    ∃ g ∈ m.groups, 0 < g.cellCount := by
  obtain ⟨count, hcount, hpos⟩ := exists_pos_of_total_pos hc
  obtain ⟨g, hg, rfl⟩ := List.mem_map.1 hcount
  exact ⟨g, hg, hpos⟩

namespace FacetsAre

variable (h : m.FacetsAre k)
include h

theorem ne : k ≠ .vertex ∧ k ≠ .cell ∧ k ≠ .facet := by
  obtain ⟨rfl, -⟩ | ⟨rfl, -⟩ := h <;> decide

theorem items_eq {g : ElementGroup} (hg : g ∈ m.groups) : g.items .facet = g.items k := by
  obtain ⟨rfl, hdim⟩ | ⟨rfl, hdim⟩ := h
  · simp only [ElementGroup.items, (Element.positions_face_of_dim (hdim g hg)).1]
  · simp only [ElementGroup.items, Element.positions_edge_of_dim (hdim g hg)]

theorem vertices?_eq : m.vertices? .facet e = m.vertices? k e := by
  unfold vertices?
  cases hg : m.groups[e.group]? with
  | none => rfl
  | some g => rw [Option.bind_some, Option.bind_some, h.items_eq (List.mem_of_getElem? hg)]

theorem hasVertex_iff : m.HasVertex .facet e v ↔ m.HasVertex k e v := by
  unfold HasVertex
  rw [h.vertices?_eq]

theorem pos_dim {g : ElementGroup} (hg : g ∈ m.groups) : 0 < g.element.dim := by
  obtain ⟨-, hdim⟩ | ⟨-, hdim⟩ := h <;> rw [hdim g hg] <;> decide

theorem supports (hc : 0 < m.cellCount) : (Topology.ofMesh m).Supports k := by
  rintro rfl
  obtain ⟨-, hdim⟩ | ⟨hk, -⟩ := h
  · obtain ⟨g, hg, hpos⟩ := exists_group_of_cellCount_pos hc
    obtain ⟨cell, hcell⟩ : ∃ cell, cell ∈ g.cells := by
      apply List.exists_mem_of_length_pos
      rwa [ElementGroup.cells, length_pieces]
    obtain ⟨ps, hps⟩ :=
      List.exists_mem_of_ne_nil _ (Element.positions_face_of_dim (hdim g hg)).2
    obtain ⟨ig, hig⟩ := List.mem_iff_getElem?.1 hg
    obtain ⟨offset, hgroup⟩ := Topology.exists_group?_of_group hig
    have hitem : EntityTable.key cell ps ∈ (GroupTopology.ofGroup ig g offset).items .face := by
      rw [GroupTopology.items_ofGroup]
      exact List.mem_eraseDups.2 (List.mem_flatMap.2 ⟨cell, hcell, List.mem_map.2 ⟨ps, hps, rfl⟩⟩)
    refine List.any_eq_true.2 ⟨_, List.mem_of_getElem? hgroup, ?_⟩
    rw [Bool.not_eq_true']
    exact List.isEmpty_eq_false_iff.2 (List.ne_nil_of_mem hitem)
  · cases hk

end FacetsAre

end Mesh

/-! ## Conversions -/

namespace Region

variable {m : Mesh} {k : Kind} {r s : Region}

section Facets

variable {e : Entity} (hr : r.Settled (.ofMesh m)) (hkind : r.kind = .facet)
include hr hkind

theorem Settled.derivesFacets : m.DerivesSides .facet r.extent r.extent := by
  have hderives := hr.derives
  rwa [← hr.kind, hkind] at hderives

theorem Settled.covers_of_mem (he : e ∈ r.entities .facet) : m.Covers (r.entities .facet) e := by
  have hholds := hr.holds
  rw [← hr.kind, hkind] at hholds
  obtain ⟨vs, hvs⟩ := hholds e he
  exact ⟨vs, hvs, fun v hv => ⟨e, he, vs, hvs, hv⟩⟩

theorem Settled.mem_entities_iff_covers (hk : m.FacetsAre k) :
    e ∈ r.entities k ↔ m.Covers (r.entities .facet) e := by
  obtain ⟨hvertex, hcell, hfacet⟩ := hk.ne
  have derived := hr.derivesFacets hkind
  have hspanned : e ∈ r.entities k ↔ m.Spanned k r.vertices e :=
    derived.others k hvertex hcell hfacet e
  rw [hspanned, Mesh.Spanned, Mesh.Covers, hk.vertices?_eq]
  simp only [vertices, derived.vertices]
  rfl

/-- What is derived from the entities of kind `k` of a region of facets. -/
theorem carriesOver_of_derive (hk : m.FacetsAre k) (hs : s.kind = k)
    (he : s.extent = (Topology.ofMesh m).derive k r.extent) :
    s.vertices = r.vertices ∧ m.CarriesOver k (r.entities .facet) s := by
  obtain ⟨hvertex, hcell, -⟩ := hk.ne
  have after : m.DerivesSides k r.extent s.extent :=
    he ▸ Topology.derivesSides_derive hvertex hcell
  have hentities : ∀ e, e ∈ s.entities k ↔ m.Covers (r.entities .facet) e := by
    intro e
    rw [entities, after.sides]
    exact hr.mem_entities_iff_covers hkind hk
  have hkept : ∀ e ∈ r.entities .facet, e ∈ s.entities k := fun e he =>
    (hentities e).2 (hr.covers_of_mem hkind he)
  have hvertices : ∀ v, v ∈ s.vertices ↔ ∃ e ∈ r.entities .facet, m.HasVertex .facet e v := by
    intro v
    rw [vertices, after.vertices, ← after.sides]
    constructor
    · -- an entity that was gained has no vertex that the facets do not have
      rintro ⟨e, he, vs, hvs, hv⟩
      obtain ⟨us, hus, hcovered⟩ := (hentities e).1 he
      rw [hk.vertices?_eq] at hus
      cases hvs.symm.trans hus
      exact hcovered v hv
    · rintro ⟨e, he, hv⟩
      exact ⟨e, hkept e he, hk.hasVertex_iff.1 hv⟩
  refine ⟨?_, hs, hvertices, hentities, hkept, fun heq e hcovered => ?_, fun hall => ?_⟩
  · ext v
    rw [hvertices]
    exact ((hr.derivesFacets hkind).vertices v).symm
  · rw [← heq]
    exact (hentities e).2 hcovered
  · ext e
    exact ⟨fun he => hall e ((hentities e).1 he), hkept e⟩

end Facets

end Region

/-! ## The surface -/

namespace Context

variable {x : Context} {m : Mesh}

theorem exists_surface (hx : x.topology = .ofMesh m) (htop : 0 < (Topology.ofMesh m).topDim) :
    ∃ r, x.evalLeaf .surface = .ok r ∧ r.Settled (.ofMesh m) ∧ r.kind = .facet ∧
      r.entities .facet = x.surface := by
  have hvalid : x.topology.error? .facet { facets := x.surface } = none := by
    rw [Topology.error?_eq_none_iff (by decide), hx]
    exact fun e he => has_of_mem_surface hx he
  obtain ⟨r, hr, hsettled, hkind, hextent⟩ := exists_made (l := .surface) hvalid
  refine ⟨r, ?_, hx ▸ hsettled, hkind, ?_⟩
  · rw [evalLeaf, hx, if_neg (Nat.ne_of_gt htop)]
    exact hr
  · rw [Region.entities, hextent]
    rfl

end Context

namespace Domain

theorem settled_empty {d : Domain} : (d.context .empty .empty).regions.Settled d.topology :=
  fun _ _ h => nomatch h

open Selection in
theorem parse_surface : parse "vertices of surface".toList = .ok [.push .surface] := by
  let word : Terminal .vertices := ⟨⟨_, "vertices".toList, 0⟩, rfl⟩
  let form : VertexForm false :=
    .surface ⟨⟨_, "of".toList, 9⟩, rfl⟩ ⟨⟨_, "surface".toList, 12⟩, rfl⟩
  let d : ExprForm := .mk (.leaf (.vertices word form)) .nil
  have htokens : Selection.tokens "vertices of surface".toList = .ok d.tokens := by rfl
  have hmeans : d.Means (.ofChars "vertices of surface".toList) 0 (.leaf .surface) :=
    ⟨nofun, Nat.zero_le maxDepth, rfl⟩
  exact parse_eq_ok_iff.2 ⟨_, parseTree_eq_ok_iff.2 ⟨d, htokens, hmeans⟩, rfl⟩

/-- On a mesh that was built, has cells and whose facets are of kind `k`, every complete region of
facets can be converted to that kind. It keeps its vertices and its facets, and gains just the facets
that these cover. So it is with the surface of a domain and the definition that selects it. -/
theorem facets_carryOver {m : Mesh} (hm : m.Built) {k : Kind} (hk : m.FacetsAre k)
    (hc : 0 < m.cellCount) :
    (∀ r : Region, r.Settled (.ofMesh m) → r.kind = .facet →
      ∃ s, r.setKind (.ofMesh m) k = ⟨s, none⟩ ∧ s.vertices = r.vertices ∧
        m.CarriesOver k (r.entities .facet) s) ∧
    ∀ (d : Domain) (fs : Functions) (c : Collection) (name : String) (parent : Option String),
      d.mesh = m → ∃ s, d.Solves fs c name ⟨"vertices of surface", k, parent⟩ s ∧
        m.CarriesOver k (d.context c fs).surface s := by
  have hsound : (Topology.ofMesh m).Sound := Topology.sound_ofMesh hm.valid
  refine ⟨fun r hr hkind => ?_, fun d fs c name parent hd => ?_⟩
  · obtain ⟨s, hs, hks, hes⟩ := Region.exists_setKind hsound hr (hk.supports hc)
    exact ⟨s, hs, Region.carriesOver_of_derive hr hkind hk hks hes⟩
  · subst hd
    have htop : 0 < (Topology.ofMesh d.mesh).topDim := by
      obtain ⟨g, hg, -⟩ := Mesh.exists_group_of_cellCount_pos hc
      exact Nat.lt_of_lt_of_le (hk.pos_dim hg) (Topology.dim_le_topDim hg)
    obtain ⟨r, hr, hsettled, hkind, hfacets⟩ :=
      Context.exists_surface (x := d.context c fs) d.topology_eq htop
    have hrun : (d.context c fs).run [.push .surface] = .ok r := by
      rw [Context.run, Context.runFrom_push, hr]
      rfl
    have hlabelled := hsettled.relabel name "vertices of surface" parent
    obtain ⟨s, hs, hks, hes⟩ := Region.exists_setKind hsound hlabelled (hk.supports hc)
    refine ⟨s, ⟨_, r, parse_surface, hrun, ?_⟩, ?_⟩
    · rw [d.topology_eq]
      exact hs
    · rw [← hfacets]
      exact (Region.carriesOver_of_derive hlabelled hkind hk hks hes).2

/-- The surface as a region and as a definition. -/
theorem facets_carryOver_square :
    let d := ofMesh "square" (.unitSquare 2 1)
    let cube := ofMesh "cube" (.unitCube 1)
    (∃ r s, (d.context .empty .empty).evalLeaf .surface = .ok r ∧ r.shape.facets = 6 ∧
      r.setKind d.topology .edge = ⟨s, none⟩ ∧ s.vertices = r.vertices ∧
      d.mesh.CarriesOver .edge (r.entities .facet) s) ∧
    ∃ s, cube.Solves .empty .empty "Rim" { selection := "vertices of surface", kind := .face } s ∧
      cube.mesh.CarriesOver .face (cube.context .empty .empty).surface s := by
  intro d cube
  have hplane : d.mesh.FacetsAre .edge := .inr ⟨rfl, by decide +kernel⟩
  have hsolid : cube.mesh.FacetsAre .face := .inl ⟨rfl, by decide +kernel⟩
  refine ⟨?_, ?_⟩
  · obtain ⟨r, hr, hshape⟩ : ∃ r, (d.context .empty .empty).evalLeaf .surface = .ok r ∧
        (r.kind, r.shape.facets) = (.facet, 6) := exists_ok_of_toOption (by decide +kernel)
    have hsettled := Context.settled_evalLeaf settled_empty hr
    obtain ⟨s, hs, hcarries⟩ := (facets_carryOver (Mesh.built_unitSquare 2 1) hplane
      (by decide +kernel)).1 r hsettled (congrArg (·.1) hshape)
    exact ⟨r, s, hr, congrArg (·.2) hshape, hs, hcarries⟩
  · exact (facets_carryOver (Mesh.built_unitCube 1) hsolid (by decide +kernel)).2 cube .empty .empty
      "Rim" none rfl

/-! ## Facets between two cells -/

/-- Every complete region of facets is converted to just the entities that it has. -/
def KeepsFacets (d : Domain) (k : Kind) : Prop :=
  ∀ r : Region, r.Settled d.topology → r.kind = .facet →
    ∃ s, r.setKind d.topology k = ⟨s, none⟩ ∧ s.entities k = r.entities .facet ∧
      s.vertices = r.vertices

/-- Two tetrahedra with a common face. -/
def twoTetrahedra : Mesh :=
  .ofGrid "two_tetrahedra" 3 .tetrahedron [⟨0, 0, 0⟩, ⟨1, 0, 0⟩, ⟨0, 1, 0⟩, ⟨0, 0, 1⟩, ⟨1, 1, 1⟩]
    [[0, 1, 2, 3], [1, 2, 3, 4]]

theorem not_keepsFacets_of_surface {d : Domain} {k : Kind}
    (h : ((d.context .empty .empty).evalLeaf .surface).toOption.map (fun r =>
      (r.kind, decide ((r.setKind d.topology k).region.entities k = r.entities .facet))) =
        some (.facet, false)) : ¬ d.KeepsFacets k := by
  intro hkeeps
  obtain ⟨r, hr, hgain⟩ := exists_ok_of_toOption h
  have hsettled := Context.settled_evalLeaf settled_empty hr
  obtain ⟨s, hs, hsame, -⟩ := hkeeps r hsettled (congrArg (·.1) hgain)
  have hdiffer := of_decide_eq_false (congrArg (·.2) hgain)
  rw [hs] at hdiffer
  exact hdiffer hsame

/-- All vertices of the facet between two squares, or two tetrahedra, are on the surface. -/
theorem not_keepsFacets :
    let square := ofMesh "square" (.unitSquare 2 1)
    let solid := ofMesh "solid" twoTetrahedra
    let rim (d : Domain) (k : Kind) :=
      (d.createRegion .empty true "Rim" { selection := "vertices of surface", kind := k }).result
    (square.mesh.Built ∧ square.mesh.FacetsAre .edge ∧ 0 < square.mesh.cellCount ∧
      ¬ square.KeepsFacets .edge ∧ ∃ s, rim square .edge = .ok s ∧
        (square.context .empty .empty).surface.ofGroup 0 = [0, 2, 3, 4, 5, 6] ∧
        s.extent.edges.ofGroup 0 = [0, 1, 2, 3, 4, 5, 6]) ∧
    solid.mesh.Built ∧ solid.mesh.FacetsAre .face ∧ 0 < solid.mesh.cellCount ∧
      ¬ solid.KeepsFacets .face ∧ ∃ s, rim solid .face = .ok s ∧
        (solid.context .empty .empty).surface.ofGroup 0 = [0, 1, 2, 4, 5, 6] ∧
        s.extent.faces.ofGroup 0 = [0, 1, 2, 3, 4, 5, 6] := by
  intro square solid rim
  have hsquare : square.mesh.FacetsAre .edge := .inr ⟨rfl, by decide +kernel⟩
  have hsolid : solid.mesh.FacetsAre .face := .inl ⟨rfl, by decide +kernel⟩
  have hbuilt : solid.mesh.Built := Mesh.built_ofGrid (by decide) (by decide) (by decide)
  obtain ⟨s, hs, hedges⟩ : ∃ s, rim square .edge = .ok s ∧
      s.extent.edges.ofGroup 0 = [0, 1, 2, 3, 4, 5, 6] := exists_ok_of_toOption (by decide +kernel)
  obtain ⟨s', hs', hfaces⟩ : ∃ s, rim solid .face = .ok s ∧
      s.extent.faces.ofGroup 0 = [0, 1, 2, 3, 4, 5, 6] := exists_ok_of_toOption (by decide +kernel)
  refine ⟨⟨Mesh.built_unitSquare 2 1, hsquare, by decide +kernel, ?_, s, hs, ?_, hedges⟩,
    hbuilt, hsolid, by decide +kernel, ?_, s', hs', ?_, hfaces⟩
  · exact not_keepsFacets_of_surface (by decide +kernel)
  · decide +kernel
  · exact not_keepsFacets_of_surface (by decide +kernel)
  · decide +kernel

end Domain

end Subdomain

import Subdomain.Definition.Basic
import Subdomain.Document.Value
import Subdomain.Mesh.Basic

/-!
# Written forms

How kinds, elements, definitions, options and element groups are written as
documents and read back. Kinds and elements are words, the others records with
fixed fields. A definition may leave out its kind and its parent. What is written
is read back as it was (`ofDocument?_toDocument`), numbers within their bounds.
-/

namespace Subdomain

def Kind.toDocument (k : Kind) : Document := .text k.name

def Kind.ofDocument? (d : Document) : Option Kind := d.word?.bind ofName?

theorem Kind.ofDocument?_toDocument (k : Kind) : ofDocument? k.toDocument = some k := ofName?_name k

def Element.toDocument (e : Element) : Document := .text e.word

def Element.ofDocument? (d : Document) : Option Element := d.word?.bind ofWord?

theorem Element.ofDocument?_toDocument (e : Element) : ofDocument? e.toDocument = some e :=
  ofWord?_word e

namespace Definition

def toDocument (d : Definition) : Document :=
  .fields [("select", .text d.selection), ("kind", d.kind.toDocument),
    ("parent", d.parent.elim .null .text)]

def ofDocument? (d : Document) : Option Definition := do
  match ← d.record? ["select", "kind", "parent"] with
  | [some s, k, p] =>
    return {
      selection := ← s.text?
      kind := ← k.elim (some .cell) Kind.ofDocument?
      parent := ← p.elim (some none) (Document.nullable? Document.text?) }
  | _ => none

theorem ofDocument?_toDocument (d : Definition) : ofDocument? d.toDocument = some d := by
  obtain ⟨s, k, p⟩ := d
  cases k <;> cases p <;> rfl

end Definition

namespace PassOptions

def toDocument (o : PassOptions) : Document :=
  .fields [("check_parent_names", .boolean o.checkParents), ("reset_before_pass", .boolean o.fresh)]

def ofDocument? (d : Document) : Option PassOptions := do
  match ← d.record? ["check_parent_names", "reset_before_pass"] with
  | [some c, some f] => return { checkParents := ← c.boolean?, fresh := ← f.boolean? }
  | _ => none

theorem ofDocument?_toDocument (o : PassOptions) : ofDocument? o.toDocument = some o := rfl

end PassOptions

namespace ElementGroup

/-- A vertex is written as an integer. -/
def ofVertex (v : Nat) : Document := .integer v

/-- Vertices are 32-bit naturals. -/
def vertexOf? (d : Document) : Option Nat := (d.integerIn? 0 0xffffffff).map Int.toNat

def toDocument (g : ElementGroup) : Document :=
  .fields [("mat_id", .integer g.material), ("element", g.element.toDocument),
    ("conn", .list (g.conn.map ofVertex))]

/-- Material ids are 32-bit integers. -/
def ofDocument? (d : Document) : Option ElementGroup := do
  match ← d.record? ["mat_id", "element", "conn"] with
  | [some m, some e, some c] =>
    return {
      material := ← m.integerIn? (-0x80000000) 0x7fffffff
      element := ← Element.ofDocument? e
      conn := ← (← c.list?).mapM vertexOf? }
  | _ => none

theorem vertexOf?_ofVertex {v : Nat} (h : v ≤ 0xffffffff) : vertexOf? (ofVertex v) = some v := by
  have hb : (0 : Int) ≤ v ∧ (v : Int) ≤ 0xffffffff := by omega
  rw [vertexOf?, ofVertex, Document.integerIn?, if_pos hb]
  rfl

theorem mapM_vertexOf? {vs : List Nat} (h : ∀ v ∈ vs, v ≤ 0xffffffff) :
    (vs.map ofVertex).mapM vertexOf? = some vs := by
  induction vs with
  | nil => rfl
  | cons v vs ih =>
    rw [List.map_cons, List.mapM_cons, vertexOf?_ofVertex (h v (by simp)),
      ih fun w hw => h w (by simp [hw])]
    rfl

/-- A group whose numbers fit is read back as it was. -/
theorem ofDocument?_toDocument {g : ElementGroup}
    (hm : -0x80000000 ≤ g.material ∧ g.material ≤ 0x7fffffff)
    (hv : ∀ v ∈ g.conn, v ≤ 0xffffffff) : ofDocument? g.toDocument = some g := by
  have hm' : (Document.integer g.material).integerIn? (-0x80000000) 0x7fffffff =
      some g.material := by
    rw [Document.integerIn?, if_pos hm]
  have hr : g.toDocument.record? ["mat_id", "element", "conn"] =
      some [some (.integer g.material), some g.element.toDocument,
        some (.list (g.conn.map ofVertex))] := rfl
  rw [ofDocument?, hr]
  dsimp only [Option.bind_eq_bind, Option.bind_some]
  rw [hm', Element.ofDocument?_toDocument]
  dsimp only [Option.bind_some, Document.list?]
  rw [mapM_vertexOf? hv]
  rfl

end ElementGroup

end Subdomain

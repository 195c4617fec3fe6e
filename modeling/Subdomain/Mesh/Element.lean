/-!
# Reference elements

An element fixes how many vertices a cell has and which of them, by position in
the cell, span its edges, faces and facets. Facets have one dimension less than
the element: the end points of a line, the edges of a plane element and the
faces of a solid one. Faces exist only in solid elements.
-/

namespace Subdomain

inductive Element where
  | line
  | triangle
  | quadrilateral
  | tetrahedron
  | hexahedron
  deriving DecidableEq, Repr

namespace Element

def all : List Element := [line, triangle, quadrilateral, tetrahedron, hexahedron]

/-- The topological dimension. -/
def dim : Element → Nat
  | line => 1
  | triangle | quadrilateral => 2
  | tetrahedron | hexahedron => 3

def vertexCount : Element → Nat
  | line => 2
  | triangle => 3
  | quadrilateral | tetrahedron => 4
  | hexahedron => 8

def edges : Element → List (List Nat)
  | line => [[0, 1]]
  | triangle => [[0, 1], [1, 2], [2, 0]]
  | quadrilateral => [[0, 1], [1, 2], [2, 3], [3, 0]]
  | tetrahedron => [[0, 1], [1, 2], [2, 0], [0, 3], [1, 3], [2, 3]]
  | hexahedron =>
    [[0, 1], [1, 2], [2, 3], [3, 0], [4, 5], [5, 6], [6, 7], [7, 4], [0, 4], [1, 5], [2, 6], [3, 7]]

def faces : Element → List (List Nat)
  | line | triangle | quadrilateral => []
  | tetrahedron => [[0, 2, 1], [0, 3, 2], [1, 3, 0], [1, 2, 3]]
  | hexahedron =>
    [[0, 3, 2, 1], [0, 4, 7, 3], [0, 1, 5, 4], [4, 5, 6, 7], [1, 2, 6, 5], [3, 7, 6, 2]]

def facets : Element → List (List Nat)
  | line => [[0], [1]]
  | e@triangle | e@quadrilateral => e.edges
  | e@tetrahedron | e@hexahedron => e.faces

/-- Dimension and vertex count joined by an underscore, as in `2_4`. -/
def descriptor : Element → String
  | line => "1_2"
  | triangle => "2_3"
  | quadrilateral => "2_4"
  | tetrahedron => "3_4"
  | hexahedron => "3_8"

def ofDescriptor? (s : String) : Option Element := all.find? (·.descriptor = s)

/-- The word for the element in structured documents. -/
def word : Element → String
  | line => "Line"
  | triangle => "Triangle"
  | quadrilateral => "Quadrilateral"
  | tetrahedron => "Tetrahedron"
  | hexahedron => "Hexahedron"

def ofWord? (s : String) : Option Element := all.find? (·.word = s)

theorem vertexCount_pos (e : Element) : 0 < e.vertexCount := by cases e <;> decide

theorem ofDescriptor?_descriptor (e : Element) : ofDescriptor? e.descriptor = some e := by
  cases e <;> rfl

theorem ofWord?_word (e : Element) : ofWord? e.word = some e := by cases e <;> rfl

theorem edges_lt {e : Element} : ∀ l ∈ e.edges, ∀ v ∈ l, v < e.vertexCount := by
  cases e <;> decide

theorem faces_lt {e : Element} : ∀ l ∈ e.faces, ∀ v ∈ l, v < e.vertexCount := by
  cases e <;> decide

theorem facets_lt {e : Element} : ∀ l ∈ e.facets, ∀ v ∈ l, v < e.vertexCount := by
  cases e <;> decide

end Element

end Subdomain

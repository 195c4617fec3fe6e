/-!
# Entity kinds

The five kinds of mesh entities that a region can be made of. Each has a name
and a one-letter code; the code ends a set operator (`Operator.lean`).
-/

namespace Subdomain

/-- Facets are the entities of one dimension less than their cells: edges in the plane, faces in
space. -/
inductive Kind where
  | vertex
  | edge
  | face
  | facet
  | cell
  deriving DecidableEq, Repr, Inhabited

namespace Kind

def all : List Kind := [vertex, edge, face, facet, cell]

def name : Kind → String
  | vertex => "vertex"
  | edge => "edge"
  | face => "face"
  | facet => "facet"
  | cell => "cell"

def code : Kind → Char
  | vertex => 'v'
  | edge => 'e'
  | face => 'f'
  | facet => 's'
  | cell => 'c'

def ofCode? (c : Char) : Option Kind := all.find? (·.code = c)

def ofName? (s : String) : Option Kind := all.find? (·.name = s)

/-- What is reported for a text that names no kind. -/
def unknownMessage (s : String) : String := s!"unknown entity kind '{s}'"

theorem mem_all (k : Kind) : k ∈ all := by cases k <;> decide

theorem ofCode?_code (k : Kind) : ofCode? k.code = some k := by cases k <;> rfl

theorem ofCode?_eq_some_iff {c : Char} {k : Kind} : ofCode? c = some k ↔ c = k.code := by
  constructor
  · intro h
    have := List.find?_some h
    simpa [eq_comm] using this
  · rintro rfl
    exact ofCode?_code k

theorem ofName?_name (k : Kind) : ofName? k.name = some k := by cases k <;> rfl

end Kind

end Subdomain

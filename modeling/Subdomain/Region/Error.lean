import Subdomain.Kind
import Subdomain.SyntaxError
import Subdomain.Predicate.Select

/-!
# Region errors

Everything that can keep a region from being defined, evaluated or converted.
-/

namespace Subdomain

/-- What a domain lacks. -/
inductive Lack where
  | faces
  | cells
  deriving DecidableEq, Repr

def Lack.message : Lack → String
  | faces => "the domain has no faces"
  | cells => "the domain has no cells"

/-- A name that a definition uses and nothing defines. -/
structure Dangling where
  definition : String
  name : String
  isParent : Bool
  deriving DecidableEq, Repr

def Dangling.message (d : Dangling) : String :=
  d.definition ++ " -> " ++ d.name ++ (if d.isParent then " (parent)" else "")

inductive RegionError where
  | syntaxError (e : SyntaxError)
  | duplicateRegion (name : String)
  | regionNotFound (name : String)
  | undefinedParents (uses : List Dangling)
  | dependencyCycle (regions : List String)
  | undefinedVertexSet (name : String)
  | undefinedCellSet (name : String)
  | undefinedFunction (name : String)
  | undefinedGroup (material : Int)
  | invalidVertexIndex (index : Int) (vertexCount : Nat)
  | invalidCellIndex (index : Int) (cellCount : Nat)
  | invalidEntityIndex (kind : Kind) (group index count : Nat)
  | invalidGroupIndex (index : Int) (groupCount : Nat)
  | predicate (expression : List Char) (fault : Predicate.SelectFault)
  | unsupported (token : String) (lack : Lack)
  | missingEntities (name : String) (kind : Kind)
  | malformedExpression (remaining : Nat)
  /-- An error that arose while the named region was defined. -/
  | inRegion (name : String) (cause : RegionError)
  deriving DecidableEq, Repr

namespace RegionError

/-- Names the region in which an error arose, unless it is named already. -/
def within (name : String) : RegionError → RegionError
  | inRegion n e => inRegion n e
  | e => inRegion name e

/-- The error without the names of regions around it. -/
def root : RegionError → RegionError
  | inRegion _ e => e.root
  | e => e

def message : RegionError → String
  | syntaxError e => e.message
  | duplicateRegion n => s!"region '{n}' already exists"
  | regionNotFound n => s!"region '{n}' not found"
  | undefinedParents uses =>
    "undefined parent regions: " ++ String.intercalate ", " (uses.map (·.message))
  | dependencyCycle ns => "cyclic region dependency between: " ++ String.intercalate ", " ns
  | undefinedVertexSet n => s!"undefined vertex set '{n}'"
  | undefinedCellSet n => s!"undefined cell set '{n}'"
  | undefinedFunction n => s!"undefined function '{n}'"
  | undefinedGroup m => s!"no element group with material id {m}"
  | invalidVertexIndex i n => s!"invalid vertex index {i} (mesh has {n} vertices)"
  | invalidCellIndex i n => s!"invalid cell index {i} (range has {n} cells)"
  | invalidEntityIndex k g i n =>
    s!"invalid {k.name} index {i} in group {g} (group has {n})"
  | invalidGroupIndex i n => s!"invalid group index {i} (mesh has {n} groups)"
  | predicate e f => s!"cannot evaluate '{String.ofList e}': {f.message}"
  | unsupported t l => s!"'{t}' is not supported: {l.message}"
  | missingEntities n k => s!"region '{n}' has no {k.name} data"
  | malformedExpression n => s!"malformed region expression: {n} items left on the stack"
  | inRegion n e => s!"region '{n}': {e.message}"

end RegionError

end Subdomain

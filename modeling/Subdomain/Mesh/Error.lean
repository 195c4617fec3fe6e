/-!
# Mesh errors

Why a mesh, a group or a list of vertex tags is refused.
-/

namespace Subdomain

inductive MeshError where
  | unknownElement (descriptor : String)
  | invalidDimension (dim : Nat)
  /-- The connectivity of a group does not split into whole cells. -/
  | raggedConnectivity (group length perCell : Nat)
  | invalidVertexIndex (group index vertexCount : Nat)
  | tagCountMismatch (length vertexCount : Nat)
  | duplicateMaterial (material : Int)
  deriving DecidableEq, Repr

namespace MeshError

def message : MeshError → String
  | unknownElement d => s!"unknown geometry element '{d}'"
  | invalidDimension d => s!"unsupported spatial dimension {d}"
  | raggedConnectivity g n k =>
    s!"connectivity of group {g} has {n} entries, not a multiple of {k}"
  | invalidVertexIndex g i n => s!"group {g} references vertex {i} (mesh has {n} vertices)"
  | tagCountMismatch k n => s!"{k} vertex tags given for {n} vertices"
  | duplicateMaterial m => s!"material id {m} is used by more than one group"

end MeshError

end Subdomain

import Subdomain.Mesh.Basic
import Subdomain.Region.Error
import Subdomain.Text.Quoted

/-!
# Selection functions

A selection function picks points by index. Selection texts call it by its name,
with the vertices of the mesh or with the centroids of its cells.
-/

namespace Subdomain

abbrev Chooser := List Point → Mesh → List Nat

/-- Selection functions by name. -/
abbrev Functions := NameTable Chooser

namespace Functions

def find (fs : Functions) (name : String) : Except RegionError Chooser :=
  match fs.get? name with
  | some f => .ok f
  | none => .error (.undefinedFunction name)

/-- The names in ascending order. -/
def sortedNames (fs : Functions) : List String := fs.names.mergeSort fun a b => decide (a ≤ b)

/-- A summary that shows the names. -/
def summary (fs : Functions) : String :=
  "Functions \x7b names: " ++ quotedList fs.sortedNames ++ " \x7d"

end Functions

end Subdomain

import Subdomain.Kind
import Subdomain.NameTable

/-!
# Definitions

A definition says how a region is selected, which kind it is converted to and
which region it is a part of. Definitions are kept by name, in the order in which
they are declared.
-/

namespace Subdomain

structure Definition where
  selection : String
  kind : Kind := .cell
  parent : Option String := none
  deriving DecidableEq, Repr

abbrev Definitions := NameTable Definition

/-- How a pass over definitions treats parents and the regions that exist already. -/
structure PassOptions where
  /-- Whether parents must be defined or exist. -/
  checkParents : Bool := true
  /-- Whether the existing regions are dropped. -/
  fresh : Bool := true
  deriving DecidableEq, Repr

end Subdomain

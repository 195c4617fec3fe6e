import Subdomain.Region.Basic
import Subdomain.Text.Quoted

/-!
# Events

What a domain reports while it creates regions. Every event has a level and
fields of text, the first of which is its message.
-/

namespace Subdomain

inductive Level where
  | debug
  | info
  | warn
  deriving DecidableEq, Repr

def Level.name : Level → String
  | debug => "DEBUG"
  | info => "INFO"
  | warn => "WARN"

inductive Event where
  | creating (domain : String) (count : Nat)
  | ordered (names : List String)
  /-- A region came out empty. -/
  | vacant (region selection : String)
  | materialized (region : String) (kind : Kind) (shape : Shape)
  | created (domain : String) (count : Nat)
  deriving DecidableEq

namespace Event

def level : Event → Level
  | creating .. | created .. => .info
  | ordered _ | materialized .. => .debug
  | vacant .. => .warn

def message : Event → String
  | creating .. => "creating regions"
  | ordered _ => "resolved region order"
  | vacant .. => "region is empty"
  | materialized .. => "materialized region"
  | created .. => "created regions"

def details : Event → List (String × String)
  | creating d n | created d n => [("domain", d), ("count", toString n)]
  | ordered names => [("order", quotedList names)]
  | vacant r s => [("region", r), ("select", s)]
  | materialized r k s =>
    [("region", r), ("kind", k.name), ("n_vertex", toString s.vertices),
     ("n_cell", toString s.cells), ("n_facet", toString s.facets)]

def fields (e : Event) : List (String × String) := ("message", e.message) :: e.details

/-- The events of a region that was just made. -/
def ofRegion (r : Region) : List Event :=
  (if r.isEmpty then [vacant r.name r.definition] else []) ++ [materialized r.name r.kind r.shape]

end Event

end Subdomain

/-!
# Documents

Structured data: the values in which definitions and element groups are written
and read.
-/

namespace Subdomain

inductive Document where
  | null
  | boolean (b : Bool)
  | integer (i : Int)
  /-- A number that is not written as an integer. -/
  | fraction
  | text (s : String)
  | list (items : List Document)
  | fields (entries : List (String × Document))
  deriving Inhabited

namespace Document

def boolean? : Document → Option Bool
  | boolean b => some b
  | _ => none

def text? : Document → Option String
  | text s => some s
  | _ => none

def list? : Document → Option (List Document)
  | list l => some l
  | _ => none

/-- An integer between two bounds. -/
def integerIn? (lo hi : Int) : Document → Option Int
  | integer i => if lo ≤ i ∧ i ≤ hi then some i else none
  | _ => none

/-- A value that may be null. -/
def nullable? {α : Type} (read : Document → Option α) : Document → Option (Option α)
  | null => some none
  | d => (read d).map some

/-- A word of a fixed vocabulary, by itself or as the name of a single field without a value. -/
def word? : Document → Option String
  | text s => some s
  | fields [(s, null)] => some s
  | _ => none

/-- The values of named fields, absent ones left out: from a record, where other fields do not
count, or from a list of values in the order of the fields. -/
def record? (names : List String) : Document → Option (List (Option Document))
  | fields es => some (names.map fun n => es.lookup n)
  | list l =>
    if l.length ≤ names.length then
      some (l.map some ++ List.replicate (names.length - l.length) none)
    else none
  | _ => none

end Document

end Subdomain

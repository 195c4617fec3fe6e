import Subdomain.NameTable
import Subdomain.Region.Basic

/-!
# Collections

Regions by their names, in the order in which they were added. A call that changes a
collection gives its answer and the collection that it leaves; one that is refused
leaves the collection as it was.
-/

namespace Subdomain

structure Collection where
  table : NameTable Region
  named : ∀ e ∈ table.entries, e.2.name = e.1

namespace Collection

def empty : Collection := ⟨.empty, by intro e he; cases he⟩

instance : Inhabited Collection := ⟨empty⟩

def names (c : Collection) : List String := c.table.names

def regions (c : Collection) : List Region := c.table.values

def size (c : Collection) : Nat := c.table.size

def isEmpty (c : Collection) : Bool := c.table.isEmpty

def contains (c : Collection) (name : String) : Bool := c.table.contains name

def get? (c : Collection) (name : String) : Option Region := c.table.get? name

def get (c : Collection) (name : String) : Except RegionError Region :=
  match c.get? name with
  | some r => .ok r
  | none => .error (.regionNotFound name)

theorem mem_put {r : Region} {es : List (String × Region)} {e : String × Region}
    (h : e ∈ NameTable.put r.name r es) : e = (r.name, r) ∨ e ∈ es := by
  induction es with
  | nil => simpa [NameTable.put] using h
  | cons e' es ih => grind [NameTable.put]

/-- Puts a region under its name, in the place of one with the same name if there is one. -/
def insert (c : Collection) (r : Region) : Collection where
  table := c.table.insert r.name r
  named := by
    intro e he
    rcases mem_put he with rfl | he
    · rfl
    · exact c.named e he

def erase (c : Collection) (name : String) : Collection where
  table := c.table.erase name
  named := fun e he => c.named e (List.mem_filter.1 he).1

/-- Adds a region whose name is new. -/
def add (c : Collection) (r : Region) : Except RegionError Unit × Collection :=
  if c.contains r.name then (.error (.duplicateRegion r.name), c) else (.ok (), c.insert r)

/-- Puts a region under its name and gives back the one that it replaces. -/
def replace (c : Collection) (r : Region) : Option Region × Collection :=
  (c.get? r.name, c.insert r)

/-- Takes a region out and gives it back. -/
def remove (c : Collection) (name : String) : Option Region × Collection :=
  (c.get? name, c.erase name)

/-- Adds all regions of another collection, or none if one of its names is not new. -/
def extend (c d : Collection) : Except RegionError Unit × Collection :=
  match d.names.find? c.contains with
  | some n => (.error (.duplicateRegion n), c)
  | none => (.ok (), d.regions.foldl insert c)

/-- Drops all regions. -/
def clear (_ : Collection) : Collection := empty

theorem contains_iff {c : Collection} {name : String} :
    c.contains name = true ↔ name ∈ c.names :=
  NameTable.contains_iff

theorem name_of_get? {c : Collection} {name : String} {r : Region} (h : c.get? name = some r) :
    r.name = name :=
  c.named _ (NameTable.get?_eq_some_iff.1 h)

theorem get?_insert {c : Collection} {r : Region} {name : String} :
    (c.insert r).get? name = if name = r.name then some r else c.get? name :=
  NameTable.get?_insert

@[simp] theorem snd_replace {c : Collection} {r : Region} : (c.replace r).2 = c.insert r := rfl

theorem names_insert {c : Collection} {r : Region} :
    (c.insert r).names = if r.name ∈ c.names then c.names else c.names ++ [r.name] :=
  NameTable.names_insert

theorem get_eq_ok_iff {c : Collection} {name : String} {r : Region} :
    c.get name = .ok r ↔ c.get? name = some r := by
  unfold get
  cases c.get? name <;> simp

@[simp] theorem get?_empty {name : String} : empty.get? name = none := rfl

@[simp] theorem names_empty : empty.names = [] := rfl

/-- Whether two collections have equal regions under the same names, in any order. -/
def sameRegions (c d : Collection) : Bool :=
  decide (c.size = d.size) && c.names.all fun n => decide (c.get? n = d.get? n)

end Collection

end Subdomain

import Mathlib.Logic.Function.Basic
import Subdomain.Region.Collection

/-!
# Listings

To its callers a collection is the list of its regions, whose names are all different. Each
call that can change a collection is one on lists (`listings`), and it changes the list and
answers as the call on the collection does (`Keeping.Call.run_listings`). So any calls to any
collections are calls to their lists, and what can be asked of a collection is read off its
list (`calls_refine`).
-/

namespace Subdomain

/-- How regions are kept by their names: every call gives its answer and what it leaves behind. -/
structure Keeping (α : Type) where
  add : α → Region → Except RegionError Unit × α
  replace : α → Region → Option Region × α
  remove : α → String → Option Region × α
  extend : α → α → Except RegionError Unit × α
  clear : α → α

def collections : Keeping Collection where
  add := Collection.add
  replace := Collection.replace
  remove := Collection.remove
  extend := Collection.extend
  clear := Collection.clear

namespace Listing

variable (l : List Region)

def names : List String := l.map (·.name)

def get? (name : String) : Option Region := l.find? (·.name = name)

/-- Appends a region whose name is new. -/
def add (r : Region) : Except RegionError Unit × List Region :=
  if r.name ∈ names l then (.error (.duplicateRegion r.name), l) else (.ok (), l ++ [r])

/-- Puts a region in the place of the one with its name, or behind the others. -/
def put (r : Region) : List Region :=
  if r.name ∈ names l then l.map fun s => if s.name = r.name then r else s else l ++ [r]

def replace (r : Region) : Option Region × List Region := (get? l r.name, put l r)

def remove (name : String) : Option Region × List Region :=
  (get? l name, l.filter (·.name ≠ name))

/-- Appends all regions of another list, or none if one of its names, of which the first is told, is
not new. -/
def extend (other : List Region) : Except RegionError Unit × List Region :=
  match other.find? (·.name ∈ names l) with
  | some r => (.error (.duplicateRegion r.name), l)
  | none => (.ok (), l ++ other)

end Listing

def listings : Keeping (List Region) where
  add := Listing.add
  replace := Listing.replace
  remove := Listing.remove
  extend := Listing.extend
  clear _ := []

/-! ## Calls -/

/-- A call that can change one of several collections. -/
inductive Keeping.Call where
  | add (r : Region)
  | replace (r : Region)
  | remove (name : String)
  | extend (other : Nat)
  | clear

namespace Keeping.Call

variable {α : Type} (k : Keeping α)

/-- What a call to number `i` leaves there. -/
def leave {β γ : Type} (s : Nat → α) (i : Nat) (answer : β → γ) (x : β × α) : γ × (Nat → α) :=
  (answer x.1, Function.update s i x.2)

/-- The answer to a call to number `i`, with the region that was replaced or removed, and what all
numbers are after the call. -/
def run (s : Nat → α) (i : Nat) : Call → Except RegionError (Option Region) × (Nat → α)
  | add r => leave s i (·.map fun _ => none) (k.add (s i) r)
  | replace r => leave s i .ok (k.replace (s i) r)
  | remove name => leave s i .ok (k.remove (s i) name)
  | extend j => leave s i (·.map fun _ => none) (k.extend (s i) (s j))
  | clear => leave s i .ok (none, k.clear (s i))

/-- The answers to calls in turn, and what they leave behind. -/
def runAll : (Nat → α) → List (Nat × Call) → List (Except RegionError (Option Region)) × (Nat → α)
  | s, [] => ([], s)
  | s, (i, call) :: calls =>
    let (answer, s) := run k s i call
    let (answers, s) := runAll s calls
    (answer :: answers, s)

end Keeping.Call

/-! ## Collections as lists -/

namespace Listing

variable {l other : List Region} {r s : Region} {name : String}

/-- The entry of a region in a table. -/
def entry (r : Region) : String × Region := (r.name, r)

theorem lookup_entries : (l.map entry).lookup name = get? l name := by
  induction l with
  | nil => rfl
  | cons s l ih =>
    rw [List.map_cons, entry, List.lookup_cons, ih, get?, get?, List.find?_cons]
    by_cases h : s.name = name
    · simp [h]
    · have hb : (name == s.name) = false := beq_eq_false_iff_ne.2 (Ne.symm h)
      simp [h, hb]

theorem put_cons_of_eq (h : s.name = r.name) (hs : r.name ∉ names l) :
    put (s :: l) r = r :: l := by
  have hrest : ∀ t ∈ l, (if t.name = r.name then r else t) = t := fun t ht =>
    if_neg fun heq => hs (List.mem_map.2 ⟨t, ht, heq⟩)
  have hmem : r.name ∈ names (s :: l) := List.mem_cons.2 (.inl h.symm)
  rw [put, if_pos hmem, List.map_cons, if_pos h, List.map_congr_left hrest, List.map_id']

theorem put_cons_of_ne (h : s.name ≠ r.name) : put (s :: l) r = s :: put l r := by
  have hmem : r.name ∈ names (s :: l) ↔ r.name ∈ names l :=
    List.mem_cons.trans (or_iff_right (Ne.symm h))
  unfold put
  simp only [hmem]
  split
  · rw [List.map_cons, if_neg h]
  · rfl

theorem put_entries (h : (names l).Nodup) :
    NameTable.put r.name r (l.map entry) = (put l r).map entry := by
  induction l with
  | nil => rfl
  | cons s l ih =>
    obtain ⟨hs, hl⟩ := List.nodup_cons.1 h
    rw [List.map_cons, NameTable.put]
    by_cases hname : s.name = r.name
    · rw [if_pos (show (entry s).1 = r.name from hname), put_cons_of_eq hname (hname ▸ hs)]
      rfl
    · rw [if_neg (show (entry s).1 ≠ r.name from hname), ih hl, put_cons_of_ne hname]
      rfl

theorem put_of_new (h : r.name ∉ names l) : put l r = l ++ [r] := if_neg h

/-- Putting new regions one after the other appends them. -/
theorem foldl_put (hnodup : (names other).Nodup) (hnew : ∀ r ∈ other, r.name ∉ names l) :
    other.foldl put l = l ++ other := by
  induction other generalizing l with
  | nil => exact (List.append_nil l).symm
  | cons r other ih =>
    obtain ⟨hr, hother⟩ := List.nodup_cons.1 hnodup
    obtain ⟨hnewr, hnew⟩ := List.forall_mem_cons.1 hnew
    rw [List.foldl_cons, put_of_new hnewr, ih hother, List.append_assoc, List.singleton_append]
    intro s hs hmem
    rw [names, List.map_append, List.mem_append, List.map_singleton, List.mem_singleton] at hmem
    rcases hmem with hmem | hmem
    · exact hnew s hs hmem
    · exact hr (List.mem_map.2 ⟨s, hs, hmem⟩)

end Listing

namespace Collection

open Listing

variable {c d : Collection} {r : Region} {name : String}

theorem entries_eq (c : Collection) : c.table.entries = c.regions.map entry := by
  rw [regions, NameTable.values, List.map_map]
  refine (List.map_id' _).symm.trans (List.map_congr_left fun e he => ?_)
  exact Prod.ext (c.named e he).symm rfl

theorem names_eq (c : Collection) : c.names = Listing.names c.regions := by
  rw [names, NameTable.names, entries_eq, List.map_map]
  rfl

theorem distinct_names (c : Collection) : (Listing.names c.regions).Nodup :=
  c.names_eq ▸ c.table.nodup

theorem get?_eq (c : Collection) (name : String) : c.get? name = Listing.get? c.regions name := by
  rw [get?, NameTable.get?, entries_eq, lookup_entries]

theorem contains_eq (c : Collection) (name : String) :
    c.contains name = decide (name ∈ Listing.names c.regions) := by
  rw [← names_eq]
  rfl

theorem regions_of_entries {l : List Region} (h : c.table.entries = l.map entry) :
    c.regions = l := by
  rw [regions, NameTable.values, h, List.map_map]
  exact List.map_id' l

theorem regions_insert (c : Collection) (r : Region) :
    (c.insert r).regions = Listing.put c.regions r := by
  refine regions_of_entries ?_
  rw [← put_entries c.distinct_names, ← entries_eq]
  rfl

theorem regions_foldl_insert (c : Collection) (l : List Region) :
    (l.foldl insert c).regions = l.foldl Listing.put c.regions := by
  induction l generalizing c with
  | nil => rfl
  | cons r l ih => rw [List.foldl_cons, ih, regions_insert, List.foldl_cons]

theorem listing_add (c : Collection) (r : Region) :
    Listing.add c.regions r = (c.add r).map id regions := by
  unfold add Listing.add
  by_cases h : r.name ∈ Listing.names c.regions
  · rw [if_pos h, if_pos ((contains_eq c _).trans (decide_eq_true h))]
    rfl
  · rw [if_neg h, if_neg (by rw [contains_eq]; simpa using h), Prod.map, regions_insert,
      put_of_new h]
    rfl

theorem listing_replace (c : Collection) (r : Region) :
    Listing.replace c.regions r = (c.replace r).map id regions :=
  Prod.ext (c.get?_eq r.name).symm (regions_insert c r).symm

theorem listing_remove (c : Collection) (name : String) :
    Listing.remove c.regions name = (c.remove name).map id regions := by
  refine Prod.ext (c.get?_eq name).symm (regions_of_entries ?_).symm
  show c.table.entries.filter (·.1 ≠ name) = _
  rw [entries_eq, List.filter_map]
  rfl

theorem listing_extend (c d : Collection) :
    Listing.extend c.regions d.regions = (c.extend d).map id regions := by
  have hfind : d.names.find? c.contains =
      (d.regions.find? (·.name ∈ Listing.names c.regions)).map (·.name) := by
    rw [names_eq, Listing.names, List.find?_map]
    congr 2
    funext r
    exact contains_eq c r.name
  unfold extend Listing.extend
  rw [hfind]
  cases hclash : d.regions.find? (·.name ∈ Listing.names c.regions) with
  | some r => rfl
  | none =>
    have hnew : ∀ r ∈ d.regions, r.name ∉ Listing.names c.regions := by
      simpa [List.find?_eq_none] using hclash
    refine Prod.ext rfl ?_
    show c.regions ++ d.regions = (d.regions.foldl insert c).regions
    rw [regions_foldl_insert, foldl_put d.distinct_names hnew]

/-- What can be asked of a collection, read off a list of regions with different names. -/
structure ReadAs (c : Collection) (l : List Region) : Prop where
  distinct : (Listing.names l).Nodup
  entries : c.table.entries = l.map fun r => (r.name, r)
  regions : c.regions = l
  names : c.names = l.map (·.name)
  size : c.size = l.length
  isEmpty : c.isEmpty = l.isEmpty
  contains : ∀ name, c.contains name = true ↔ ∃ r ∈ l, r.name = name
  get? : ∀ name, c.get? name = l.find? (·.name = name)
  get : ∀ name, c.get name =
    match l.find? (·.name = name) with
    | some r => .ok r
    | none => .error (.regionNotFound name)

theorem readAs_regions (c : Collection) : c.ReadAs c.regions where
  distinct := c.distinct_names
  entries := c.entries_eq
  regions := rfl
  names := c.names_eq
  size := by rw [size, NameTable.size, entries_eq, List.length_map]
  isEmpty := by rw [isEmpty, NameTable.isEmpty, entries_eq, List.isEmpty_map]
  contains name := by rw [contains_iff, names_eq, Listing.names, List.mem_map]
  get? := c.get?_eq
  get name := by
    rw [get, get?_eq]
    rfl

end Collection

/-! ## Calls on lists -/

namespace Keeping.Call

theorem leave_regions {β γ : Type} (s : Nat → Collection) (i : Nat) (answer : β → γ)
    (x : β × Collection) :
    leave (Collection.regions ∘ s) i answer (x.map id Collection.regions) =
      (leave s i answer x).map id (Collection.regions ∘ ·) :=
  Prod.ext rfl (Function.comp_update Collection.regions s i x.2).symm

/-- A call to a collection answers, and leaves behind, what the call to the list of its regions
does. -/
theorem run_listings (s : Nat → Collection) (i : Nat) (call : Call) :
    run listings (Collection.regions ∘ s) i call =
      (run collections s i call).map id (Collection.regions ∘ ·) := by
  cases call with
  | add r => exact (congrArg _ (Collection.listing_add (s i) r)).trans (leave_regions s i _ _)
  | replace r =>
    exact (congrArg _ (Collection.listing_replace (s i) r)).trans (leave_regions s i _ _)
  | remove name =>
    exact (congrArg _ (Collection.listing_remove (s i) name)).trans (leave_regions s i _ _)
  | extend j =>
    exact (congrArg _ (Collection.listing_extend (s i) (s j))).trans (leave_regions s i _ _)
  | clear => exact leave_regions s i _ (none, (s i).clear)

theorem runAll_listings (s : Nat → Collection) (calls : List (Nat × Call)) :
    runAll listings (Collection.regions ∘ s) calls =
      Prod.map id (Collection.regions ∘ ·) (runAll collections s calls) := by
  induction calls generalizing s with
  | nil => rfl
  | cons c calls ih =>
    obtain ⟨i, call⟩ := c
    rw [runAll, run_listings, runAll]
    exact congrArg (fun p => (_ :: p.1, p.2)) (ih _)

end Keeping.Call

namespace Collection

open Keeping

/-- Calls to collections answer as calls to the lists of their regions, and what they leave behind
reads as what is left of the lists. -/
theorem calls_refine (s : Nat → Collection) (calls : List (Nat × Call)) :
    (Call.runAll collections s calls).1 =
        (Call.runAll listings (fun i => (s i).regions) calls).1 ∧
      ∀ i, ReadAs ((Call.runAll collections s calls).2 i)
        ((Call.runAll listings (fun i => (s i).regions) calls).2 i) := by
  have hrun := Call.runAll_listings s calls
  have hleft (i : Nat) : (Call.runAll listings (fun i => (s i).regions) calls).2 i =
      ((Call.runAll collections s calls).2 i).regions := congrArg (fun p => p.2 i) hrun
  refine ⟨(congrArg Prod.fst hrun).symm, fun i => ?_⟩
  rw [hleft i]
  exact readAs_regions _

end Collection

end Subdomain

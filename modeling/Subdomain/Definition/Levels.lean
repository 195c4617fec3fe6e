import Subdomain.Lists
import Subdomain.NameTable

/-!
# Dependency levels

Orders names by their dependencies with Kahn's algorithm. For every name the number of
dependencies that are not placed yet is counted down; a name whose count comes to zero is
of the next level. The first level holds the names without dependencies. Names whose count
never comes to zero wait for a cycle.
-/

namespace Subdomain

/-- The dependencies of every name. -/
abbrev Dependencies := NameTable (List String)

/-- The number of dependencies that each name waits for, and the names that have stopped waiting
since the last level. -/
structure Countdown where
  counts : NameTable Nat
  next : List String

namespace Countdown

/-- Takes one from the count of a name. There is none to take from zero. -/
def tick (s : Countdown) (name : String) : Option Countdown :=
  match s.counts.get? name with
  | none => some s
  | some 0 => none
  | some (k + 1) => some ⟨s.counts.insert name k, if k = 0 then s.next ++ [name] else s.next⟩

/-- Counts down the dependents of the names of a level. -/
def place (s : Countdown) (dependents : NameTable (List String)) (level : List String) :
    Option Countdown :=
  level.foldlM (fun s name => ((dependents.get? name).getD []).foldlM tick s) ⟨s.counts, []⟩

/-- What there is left to do. -/
def load (s : Countdown) : Nat := total s.counts.values + s.next.length

theorem total_put {es : List (String × Nat)} {name : String} {k : Nat}
    (h : es.lookup name = some (k + 1)) :
    total ((NameTable.put name k es).map (·.2)) + 1 = total (es.map (·.2)) := by
  induction es with
  | nil => cases h
  | cons e es ih =>
    rw [NameTable.put]
    by_cases he : e.1 = name
    · have hb : (name == e.1) = true := beq_iff_eq.2 he.symm
      rw [List.lookup_cons, hb] at h
      have hk : e.2 = k + 1 := Option.some.inj h
      simp only [if_pos he, List.map_cons, total_cons]
      omega
    · have hb : (name == e.1) = false := beq_eq_false_iff_ne.2 (Ne.symm he)
      rw [List.lookup_cons, hb] at h
      simp only [if_neg he, List.map_cons, total_cons]
      have := ih h
      omega

theorem load_tick {s s' : Countdown} {name : String} (h : s.tick name = some s') :
    s'.load ≤ s.load := by
  unfold tick at h
  split at h
  · cases h
    exact Nat.le_refl _
  · cases h
  · rename_i k hk
    cases h
    have hput : total (s.counts.insert name k).values + 1 = total s.counts.values := total_put hk
    simp only [load]
    split
    · simp only [List.length_append, List.length_singleton]
      omega
    · omega

theorem load_foldlM {f : Countdown → String → Option Countdown}
    (hf : ∀ s n s', f s n = some s' → s'.load ≤ s.load) {l : List String} {s s' : Countdown}
    (h : l.foldlM f s = some s') : s'.load ≤ s.load := by
  induction l generalizing s with
  | nil =>
    cases h
    exact Nat.le_refl _
  | cons n l ih =>
    obtain ⟨t, ht, hrest⟩ := Option.bind_eq_some_iff.1 h
    exact Nat.le_trans (ih hrest) (hf s n t ht)

/-- Every name of the next level has taken one from the counts. -/
theorem load_place_lt {dependents : NameTable (List String)} {level : List String}
    {s s' : Countdown} (hs : s.next ≠ []) (h : s.place dependents level = some s') :
    s'.load < s.load := by
  have hle : s'.load ≤ load ⟨s.counts, []⟩ :=
    load_foldlM (fun _ _ _ h => load_foldlM (fun _ _ _ h => load_tick h) h) h
  have hlength := List.length_pos_iff.2 hs
  simp only [load, List.length_nil] at hle ⊢
  omega

end Countdown

namespace Dependencies

/-- The distinct dependencies of a name that are names of the table. -/
def needs (d : Dependencies) (name : String) : List String :=
  (((d.get? name).getD []).eraseDups).filter d.contains

def inDegrees (d : Dependencies) : NameTable Nat := d.mapValues fun n _ => (d.needs n).length

/-- Notes that `name` depends on another name. -/
def addDependent (name : String) (t : NameTable (List String)) (need : String) :
    NameTable (List String) :=
  t.insert need ((t.get? need).getD [] ++ [name])

/-- The names that depend on each name. -/
def dependents (d : Dependencies) : NameTable (List String) :=
  d.names.foldl (fun t n => (d.needs n).foldl (addDependent n) t) .empty

/-- Places the next levels behind those that are placed, and gives all levels at the end, or the
names that go on waiting. -/
def placeFrom (d : Dependencies) (dependents : NameTable (List String)) (s : Countdown)
    (placed : Nat) (levels : List (List String)) :
    Option (Except (List String) (List (List String))) :=
  if hs : s.next = [] then
    some (if placed = d.size then .ok levels
      else .error ((s.counts.entries.filter (0 < ·.2)).map (·.1)))
  else
    let level := sortBy d.names.idxOf s.next
    match h : s.place dependents level with
    | none => none
    | some s' =>
      have := Countdown.load_place_lt hs h
      placeFrom d dependents s' (placed + level.length) (levels ++ [level])
termination_by s.load

/-- Places all names. There would be no answer if a count of zero were to go down. -/
def kahn (d : Dependencies) : Option (Except (List String) (List (List String))) :=
  d.placeFrom d.dependents ⟨d.inDegrees, (d.inDegrees.entries.filter (·.2 = 0)).map (·.1)⟩ 0 []

/-- The levels of all names, or the names that wait for a cycle. There always is an answer
(`Dependencies.kahn_eq`). -/
def levels (d : Dependencies) : Except (List String) (List (List String)) := d.kahn.getD (.ok [])

end Dependencies

end Subdomain

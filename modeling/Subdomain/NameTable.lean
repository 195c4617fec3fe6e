/-!
# Tables by name

A `NameTable β` gives every name at most one value and keeps the names in the
order in which they were first inserted. Inserting a name that is present
replaces its value in place.
-/

namespace Subdomain

structure NameTable (β : Type) where
  entries : List (String × β)
  nodup : (entries.map (·.1)).Nodup

namespace NameTable

variable {β : Type}

def empty : NameTable β := ⟨[], .nil⟩

instance : Inhabited (NameTable β) := ⟨empty⟩

def names (t : NameTable β) : List String := t.entries.map (·.1)

def values (t : NameTable β) : List β := t.entries.map (·.2)

def size (t : NameTable β) : Nat := t.entries.length

def isEmpty (t : NameTable β) : Bool := t.entries.isEmpty

def get? (t : NameTable β) (name : String) : Option β := t.entries.lookup name

def contains (t : NameTable β) (name : String) : Bool := decide (name ∈ t.names)

/-- The entries after `name` is given the value `v`. -/
def put (name : String) (v : β) : List (String × β) → List (String × β)
  | [] => [(name, v)]
  | e :: es => if e.1 = name then (name, v) :: es else e :: put name v es

theorem names_put {name : String} {v : β} {es : List (String × β)} :
    (put name v es).map (·.1) =
      if name ∈ es.map (·.1) then es.map (·.1) else es.map (·.1) ++ [name] := by
  induction es with
  | nil => simp [put]
  | cons e es ih =>
    rw [put]
    by_cases h : e.1 = name
    · simp [h]
    · rw [if_neg h, List.map_cons, ih, List.map_cons]
      by_cases hm : name ∈ es.map (·.1)
      · rw [if_pos hm, if_pos (List.mem_cons_of_mem _ hm)]
      · have : ¬ name ∈ e.1 :: es.map (·.1) := by
          simp only [List.mem_cons, not_or]
          exact ⟨fun h' => h h'.symm, hm⟩
        rw [if_neg hm, if_neg this]
        rfl

theorem lookup_put {name other : String} {v : β} {es : List (String × β)} :
    (put name v es).lookup other = if other = name then some v else es.lookup other := by
  induction es with
  | nil => by_cases h : other = name <;> simp [put, h]
  | cons e es ih => grind [put]

def insert (t : NameTable β) (name : String) (v : β) : NameTable β where
  entries := put name v t.entries
  nodup := by
    rw [names_put]
    split
    · exact t.nodup
    · rename_i h
      exact List.nodup_append.2 ⟨t.nodup, by simp, fun a ha b hb e => by simp_all⟩

def erase (t : NameTable β) (name : String) : NameTable β where
  entries := t.entries.filter (·.1 ≠ name)
  nodup := t.nodup.sublist (List.filter_sublist.map _)

def ofList (es : List (String × β)) : NameTable β :=
  es.foldl (fun t e => t.insert e.1 e.2) empty

/-- Changes the values and keeps the names. -/
def mapValues {γ : Type} (f : String → β → γ) (t : NameTable β) : NameTable γ where
  entries := t.entries.map fun e => (e.1, f e.1 e.2)
  nodup := by simpa [Function.comp_def] using t.nodup

theorem names_insert {t : NameTable β} {name : String} {v : β} :
    (t.insert name v).names = if name ∈ t.names then t.names else t.names ++ [name] :=
  names_put

theorem get?_insert {t : NameTable β} {name other : String} {v : β} :
    (t.insert name v).get? other = if other = name then some v else t.get? other :=
  lookup_put

theorem names_mapValues {γ : Type} {f : String → β → γ} {t : NameTable β} :
    (t.mapValues f).names = t.names := by
  simp [names, mapValues, Function.comp_def]

theorem get?_isSome {t : NameTable β} {name : String} :
    (t.get? name).isSome = true ↔ name ∈ t.names := by
  obtain ⟨es, _⟩ := t
  simp only [get?, names]
  induction es with
  | nil => simp
  | cons e es ih => grind

theorem contains_iff {t : NameTable β} {name : String} :
    t.contains name = true ↔ name ∈ t.names := by
  simp [contains]

theorem get?_eq_none_iff {t : NameTable β} {name : String} :
    t.get? name = none ↔ name ∉ t.names := by
  rw [← get?_isSome, Bool.not_eq_true, Option.isSome_eq_false_iff, Option.isNone_iff_eq_none]

theorem lookup_eq_some_iff {κ : Type} [BEq κ] [LawfulBEq κ] {es : List (κ × β)}
    (h : (es.map (·.1)).Nodup) {name : κ} {v : β} :
    es.lookup name = some v ↔ (name, v) ∈ es := by
  induction es with
  | nil => simp
  | cons e es ih =>
    obtain ⟨n, w⟩ := e
    rw [List.map_cons, List.nodup_cons] at h
    by_cases hn : name = n
    · subst hn
      have : (name, v) ∉ es := fun hm => h.1 (List.mem_map.2 ⟨_, hm, rfl⟩)
      simp [this, eq_comm]
    · have hb : (name == n) = false := by simpa using hn
      simp [List.lookup_cons, hb, hn, ih h.2]

theorem get?_eq_some_iff {t : NameTable β} {name : String} {v : β} :
    t.get? name = some v ↔ (name, v) ∈ t.entries :=
  lookup_eq_some_iff t.nodup

theorem mem_names_of_get? {t : NameTable β} {name : String} {v : β} (h : t.get? name = some v) :
    name ∈ t.names :=
  get?_isSome.1 (by rw [h]; rfl)

theorem exists_get?_of_mem_names {t : NameTable β} {name : String} (h : name ∈ t.names) :
    ∃ v, t.get? name = some v :=
  Option.isSome_iff_exists.1 (get?_isSome.2 h)

theorem get?_mapValues {γ : Type} {f : String → β → γ} {t : NameTable β} {name : String} :
    (t.mapValues f).get? name = (t.get? name).map (f name) := by
  cases h : t.get? name with
  | none =>
    rw [get?_eq_none_iff] at h
    rw [Option.map_none, get?_eq_none_iff, names_mapValues]
    exact h
  | some v =>
    rw [get?_eq_some_iff] at h
    rw [Option.map_some, get?_eq_some_iff]
    exact List.mem_map.2 ⟨_, h, rfl⟩

end NameTable

end Subdomain

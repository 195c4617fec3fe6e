/-!
# Sorted sets

A `SortedSet α` is a strictly ascending list of keys, so two sets with the same
members are equal (`SortedSet.ext`). Every operation is described by the members
of its result.
-/

namespace Subdomain

/-- A strict linear order with a decision procedure. -/
class LinearKey (α : Type) extends LT α where
  decLt : DecidableRel (α := α) (· < ·)
  lt_irrefl : ∀ a : α, ¬ a < a
  lt_trans : ∀ {a b c : α}, a < b → b < c → a < c
  lt_connex : ∀ {a b : α}, ¬ a < b → ¬ b < a → a = b

instance LinearKey.decidableLt {α : Type} [LinearKey α] : DecidableRel (α := α) (· < ·) :=
  LinearKey.decLt

instance : LinearKey Nat where
  decLt := inferInstance
  lt_irrefl := Nat.lt_irrefl
  lt_trans := Nat.lt_trans
  lt_connex h h' := by omega

structure SortedSet (α : Type) [LinearKey α] where
  toList : List α
  sorted : toList.Pairwise (· < ·)

namespace SortedSet

variable {α : Type} [LinearKey α]

/-- Places `x` among ascending keys; a key that is there already stays once. -/
def place (x : α) : List α → List α
  | [] => [x]
  | y :: ys => if x < y then x :: y :: ys else if y < x then y :: place x ys else y :: ys

theorem mem_place {a x : α} {ys : List α} : a ∈ place x ys ↔ a = x ∨ a ∈ ys := by
  induction ys with
  | nil => simp [place]
  | cons y ys ih =>
    simp only [place]
    split
    · simp
    · split
      · simp [ih]; grind
      · rename_i h h'
        have := LinearKey.lt_connex h h'
        subst this
        simp

theorem pairwise_place {x : α} {ys : List α} (h : ys.Pairwise (· < ·)) :
    (place x ys).Pairwise (· < ·) := by
  induction ys with
  | nil => simp [place]
  | cons y ys ih =>
    have hy := List.pairwise_cons.1 h
    simp only [place]
    split
    · rename_i hxy
      refine List.pairwise_cons.2 ⟨fun b hb => ?_, h⟩
      rcases List.mem_cons.1 hb with rfl | hb
      · exact hxy
      · exact LinearKey.lt_trans hxy (hy.1 b hb)
    · split
      · rename_i hyx
        refine List.pairwise_cons.2 ⟨fun b hb => ?_, ih hy.2⟩
        rcases mem_place.1 hb with rfl | hb
        · exact hyx
        · exact hy.1 b hb
      · exact h

instance : Membership α (SortedSet α) := ⟨fun s a => a ∈ s.toList⟩

theorem mem_toList {a : α} {s : SortedSet α} : a ∈ s.toList ↔ a ∈ s := Iff.rfl

instance [DecidableEq α] (a : α) (s : SortedSet α) : Decidable (a ∈ s) :=
  inferInstanceAs (Decidable (a ∈ s.toList))

instance : HasSubset (SortedSet α) := ⟨fun s t => ∀ a ∈ s, a ∈ t⟩

@[ext] theorem ext {s t : SortedSet α} (h : ∀ a, a ∈ s ↔ a ∈ t) : s = t := by
  obtain ⟨l, hl⟩ := s
  obtain ⟨m, hm⟩ := t
  congr
  change ∀ a, a ∈ l ↔ a ∈ m at h
  induction l generalizing m with
  | nil =>
    cases m with
    | nil => rfl
    | cons y ys => simpa using h y
  | cons x xs ih =>
    cases m with
    | nil => simpa using h x
    | cons y ys =>
      have hx := List.pairwise_cons.1 hl
      have hy := List.pairwise_cons.1 hm
      have hxy : x = y := by
        rcases List.mem_cons.1 ((h x).1 (by simp)) with e | hxm
        · exact e
        · rcases List.mem_cons.1 ((h y).2 (by simp)) with e | hyl
          · exact e.symm
          · exact absurd (LinearKey.lt_trans (hx.1 y hyl) (hy.1 x hxm)) (LinearKey.lt_irrefl x)
      subst hxy
      congr
      refine ih hx.2 ys hy.2 fun a => ⟨fun ha => ?_, fun ha => ?_⟩
      · rcases List.mem_cons.1 ((h a).1 (by simp [ha])) with rfl | h'
        · exact absurd (hx.1 _ ha) (LinearKey.lt_irrefl _)
        · exact h'
      · rcases List.mem_cons.1 ((h a).2 (by simp [ha])) with rfl | h'
        · exact absurd (hy.1 _ ha) (LinearKey.lt_irrefl _)
        · exact h'

instance [DecidableEq α] : DecidableEq (SortedSet α) := fun s t =>
  decidable_of_iff (s.toList = t.toList)
    ⟨fun h => by cases s; cases t; cases h; rfl, fun h => by rw [h]⟩

instance : EmptyCollection (SortedSet α) := ⟨⟨[], .nil⟩⟩

instance : Inhabited (SortedSet α) := ⟨∅⟩

def insert (x : α) (s : SortedSet α) : SortedSet α := ⟨place x s.toList, pairwise_place s.sorted⟩

/-- The members of a list, in any order and with repeats. -/
def ofList (l : List α) : SortedSet α := l.foldr insert ∅

def union (s t : SortedSet α) : SortedSet α := s.toList.foldr insert t

def filter (p : α → Bool) (s : SortedSet α) : SortedSet α :=
  ⟨s.toList.filter p, s.sorted.filter p⟩

instance : Union (SortedSet α) := ⟨union⟩

instance [DecidableEq α] : Inter (SortedSet α) := ⟨fun s t => s.filter fun a => decide (a ∈ t)⟩

instance [DecidableEq α] : SDiff (SortedSet α) := ⟨fun s t => s.filter fun a => !decide (a ∈ t)⟩

def size (s : SortedSet α) : Nat := s.toList.length

def isEmpty (s : SortedSet α) : Bool := s.toList.isEmpty

/-- The least member. -/
def min? (s : SortedSet α) : Option α := s.toList.head?

@[simp] theorem not_mem_empty (a : α) : ¬ a ∈ (∅ : SortedSet α) := List.not_mem_nil

@[simp] theorem mem_insert {a x : α} {s : SortedSet α} : a ∈ s.insert x ↔ a = x ∨ a ∈ s :=
  mem_place

@[simp] theorem mem_ofList {a : α} {l : List α} : a ∈ ofList l ↔ a ∈ l := by
  induction l with
  | nil => simp [ofList]
  | cons x xs ih => rw [ofList, List.foldr_cons, mem_insert, ← ofList, ih, List.mem_cons]

@[simp] theorem mem_filter {a : α} {p : α → Bool} {s : SortedSet α} :
    a ∈ s.filter p ↔ a ∈ s ∧ p a := List.mem_filter

@[simp] theorem mem_union {a : α} {s t : SortedSet α} : a ∈ s ∪ t ↔ a ∈ s ∨ a ∈ t := by
  obtain ⟨l, hl⟩ := s
  show a ∈ l.foldr insert t ↔ a ∈ l ∨ a ∈ t
  clear hl
  induction l with
  | nil => simp
  | cons x xs ih => simp [ih, or_assoc]

@[simp] theorem mem_inter [DecidableEq α] {a : α} {s t : SortedSet α} :
    a ∈ s ∩ t ↔ a ∈ s ∧ a ∈ t := by
  show a ∈ s.filter _ ↔ _
  simp

@[simp] theorem mem_sdiff [DecidableEq α] {a : α} {s t : SortedSet α} :
    a ∈ s \ t ↔ a ∈ s ∧ ¬ a ∈ t := by
  show a ∈ s.filter _ ↔ _
  simp

@[simp] theorem isEmpty_iff {s : SortedSet α} : s.isEmpty = true ↔ s = ∅ := by
  constructor
  · intro h
    ext a
    have : s.toList = [] := by simpa [isEmpty] using h
    rw [← mem_toList, this]
    exact iff_of_false List.not_mem_nil (not_mem_empty a)
  · rintro rfl
    rfl

theorem exists_mem_of_ne_empty {s : SortedSet α} (h : s ≠ ∅) : ∃ a, a ∈ s :=
  List.exists_mem_of_ne_nil s.toList fun hnil => h (isEmpty_iff.1 (List.isEmpty_iff.2 hnil))

theorem nodup (s : SortedSet α) : s.toList.Nodup :=
  s.sorted.imp fun h e => absurd (e ▸ h) (LinearKey.lt_irrefl _)

end SortedSet

/-- A set of vertices, cells or entities by index. -/
abbrev IdSet := SortedSet Nat

/-- An edge, face, facet or cell: its element group and its index inside the group. -/
structure Entity where
  group : Nat
  index : Nat
  deriving DecidableEq, Repr

instance : LinearKey Entity where
  lt a b := a.group < b.group ∨ (a.group = b.group ∧ a.index < b.index)
  decLt a b := inferInstanceAs (Decidable (_ ∨ _))
  lt_irrefl a := by rintro (h | h) <;> omega
  lt_trans := by rintro a b c (h | h) (h' | h') <;> omega
  lt_connex := by
    intro a b h h'
    obtain ⟨ga, ia⟩ := a
    obtain ⟨gb, ib⟩ := b
    simp only [not_or, not_and] at h h'
    have hg : ga = gb := by omega
    subst hg
    have hi : ia = ib := by omega
    subst hi
    rfl

/-- Entities of one kind, ordered by group and then by index. -/
abbrev EntitySet := SortedSet Entity

namespace EntitySet

/-- The groups that hold a member. -/
def groups (s : EntitySet) : IdSet := .ofList (s.toList.map (·.group))

/-- The members in group `ig`, by index. -/
def ofGroup (s : EntitySet) (ig : Nat) : List Nat :=
  (s.toList.filter (·.group = ig)).map (·.index)

/-- One entry for every group that holds a member. -/
def byGroup (s : EntitySet) : List (Nat × List Nat) :=
  s.groups.toList.map fun ig => (ig, s.ofGroup ig)

@[simp] theorem mem_groups {s : EntitySet} {ig : Nat} :
    ig ∈ s.groups ↔ ∃ e ∈ s, e.group = ig := by
  simp [groups, SortedSet.mem_toList]

theorem mem_ofGroup {s : EntitySet} {ig i : Nat} : i ∈ s.ofGroup ig ↔ ⟨ig, i⟩ ∈ s := by
  simp only [ofGroup, List.mem_map, List.mem_filter, decide_eq_true_eq, SortedSet.mem_toList]
  constructor
  · rintro ⟨⟨g, j⟩, ⟨h, rfl⟩, rfl⟩
    exact h
  · intro h
    exact ⟨⟨ig, i⟩, ⟨h, rfl⟩, rfl⟩

end EntitySet

end Subdomain

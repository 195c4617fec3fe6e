import Mathlib.Data.List.Basic
import Subdomain.Region.Marking

/-!
# Last writers

Marking writes numbers over numbers. What is left of the writes of some items, each of
which writes the next number or nothing, is the number of the last writer, or what was
there before (`overwrite_eq_iff`).
-/

namespace Subdomain

namespace Marking

/-! ## Last writers -/

section

variable {α : Type} {P : α → Prop} {a : α} {l : List α} {i : Nat} {n x y : Int}

/-- The item at place `i` is as `P` says, and none behind it is. -/
def LastAt (P : α → Prop) (l : List α) (i : Nat) : Prop :=
  (∃ a, l[i]? = some a ∧ P a) ∧ ∀ j a, i < j → l[j]? = some a → ¬ P a

/-- `y` is the place of the last item that is as `P` says, and `x` if there is none. -/
def LeftBy (P : α → Prop) (l : List α) (x y : Int) : Prop :=
  (∃ i : Nat, LastAt P l i ∧ y = i) ∨ (∀ a ∈ l, ¬ P a) ∧ y = x

/-- What is left of `x` when one item after the other, each with the next number, has written its
number if it is as `P` says. -/
def overwrite (P : α → Prop) [DecidablePred P] : Int → Int → List α → Int
  | _, x, [] => x
  | n, x, a :: l => overwrite P (n + 1) (if P a then n else x) l

theorem lastAt_zero_iff : LastAt P (a :: l) 0 ↔ P a ∧ ∀ b ∈ l, ¬ P b := by
  unfold LastAt
  refine and_congr (by simp) ⟨fun h b hb => ?_, fun h j b hj hb => ?_⟩
  · obtain ⟨j, hj⟩ := List.getElem?_of_mem hb
    exact h (j + 1) b (Nat.succ_pos j) hj
  · obtain ⟨j, rfl⟩ := Nat.exists_eq_add_one.2 hj
    exact h b (List.mem_of_getElem? hb)

theorem lastAt_succ_iff : LastAt P (a :: l) (i + 1) ↔ LastAt P l i := by
  unfold LastAt
  refine and_congr Iff.rfl ⟨fun h j b hj hb => ?_, fun h j b hj hb => ?_⟩
  · exact h (j + 1) b (Nat.succ_lt_succ hj) hb
  · obtain ⟨j, rfl⟩ := Nat.exists_eq_add_one.2 (Nat.zero_lt_of_lt hj)
    exact h j b (Nat.lt_of_succ_lt_succ hj) hb

theorem LastAt.unique {j : Nat} (hi : LastAt P l i) (hj : LastAt P l j) : i = j := by
  obtain ⟨⟨a, ha, hPa⟩, hafter⟩ := hi
  obtain ⟨⟨b, hb, hPb⟩, hafter'⟩ := hj
  rcases Nat.lt_trichotomy i j with hlt | heq | hlt
  · exact absurd hPb (hafter j b hlt hb)
  · exact heq
  · exact absurd hPa (hafter' i a hlt ha)

variable [DecidablePred P]

theorem overwrite_append {m : List α} :
    overwrite P n x (l ++ m) = overwrite P (n + l.length) (overwrite P n x l) m := by
  induction l generalizing n x with
  | nil => simp [overwrite]
  | cons a l ih =>
    rw [List.cons_append, overwrite, overwrite, ih, List.length_cons]
    congr 1
    omega

/-- The last writer decides what is left. -/
theorem overwrite_eq_iff : overwrite P n x l = y ↔
    (∃ i : Nat, LastAt P l i ∧ y = n + i) ∨ (∀ a ∈ l, ¬ P a) ∧ y = x := by
  induction l generalizing n x with
  | nil => simp [overwrite, LastAt, eq_comm]
  | cons a l ih =>
    have hcast (i : Nat) : n + ((i + 1 : Nat) : Int) = n + 1 + i := by omega
    have hlast : (∃ i : Nat, LastAt P (a :: l) i ∧ y = n + i) ↔
        ((P a ∧ ∀ b ∈ l, ¬ P b) ∧ y = n) ∨ ∃ i : Nat, LastAt P l i ∧ y = n + 1 + i := by
      rw [← Nat.or_exists_add_one]
      simp only [lastAt_zero_iff, lastAt_succ_iff, hcast, Int.natCast_zero, Int.add_zero]
    rw [overwrite, ih, hlast, List.forall_mem_cons]
    by_cases ha : P a
    · rw [if_pos ha]
      simp only [ha, true_and, not_true, false_and, or_false]
      exact or_comm
    · rw [if_neg ha]
      simp only [ha, false_and, false_or, not_false_eq_true, true_and]

theorem leftBy_overwrite : LeftBy P l x y ↔ overwrite P 0 x l = y := by
  rw [overwrite_eq_iff]
  simp only [LeftBy, Int.zero_add]

end

/-! ## Single writes -/

section

variable {α : Type} {x : α} {places : List Nat} {l : List α} {i : Nat}

theorem length_setAll : (setAll x places l).length = l.length := by
  unfold setAll
  induction places generalizing l with
  | nil => rfl
  | cons p ps ih => rw [List.foldl_cons, ih, List.length_set]

theorem getElem?_setAll :
    (setAll x places l)[i]? = l[i]?.map fun y => if i ∈ places then x else y := by
  unfold setAll
  induction places generalizing l with
  | nil => simp
  | cons p ps ih =>
    rw [List.foldl_cons, ih, List.getElem?_set']
    by_cases hp : p = i
    · subst hp
      simp [Function.comp_def]
    · have hne : i ≠ p := fun h => hp h.symm
      simp [hp, hne]

end

/-- The number of a cell in lists of numbers by group. -/
def numberIn? (cells : List (List Int)) (c : Entity) : Option Int :=
  cells[c.group]?.bind (·[c.index]?)

def number? (k : Marking) (c : Entity) : Option Int := numberIn? k.cells c

theorem numberIn?_modify {cells : List (List Int)} {c : Entity} {ig : Nat} {ids : List Nat}
    {x : Int} : numberIn? (cells.modify ig (setAll x ids)) c =
      (numberIn? cells c).map fun y => if ig = c.group ∧ c.index ∈ ids then x else y := by
  unfold numberIn?
  rw [List.getElem?_modify]
  cases cells[c.group]? with
  | none => rfl
  | some row =>
    by_cases hg : ig = c.group
    · simp [hg, getElem?_setAll]
    · simp [hg]

end Marking

end Subdomain

/-!
# Sums and sorting of lists
-/

namespace Subdomain

/-- The sum of some numbers. -/
def total (l : List Nat) : Nat := l.foldr (· + ·) 0

@[simp] theorem total_nil : total [] = 0 := rfl

@[simp] theorem total_cons {n : Nat} {l : List Nat} : total (n :: l) = n + total l := rfl

@[simp] theorem total_append {l m : List Nat} : total (l ++ m) = total l + total m := by
  induction l with
  | nil => simp
  | cons n l ih => simp [ih, Nat.add_assoc]

variable {α : Type} {key : α → Nat}

/-- Places a value before the first one whose key is not smaller. -/
def placeBy (key : α → Nat) (x : α) : List α → List α
  | [] => [x]
  | y :: ys => if key x ≤ key y then x :: y :: ys else y :: placeBy key x ys

/-- Sorts by keys. Values with equal keys keep their order. -/
def sortBy (key : α → Nat) (l : List α) : List α := l.foldr (placeBy key) []

theorem perm_placeBy (x : α) (ys : List α) : (placeBy key x ys).Perm (x :: ys) := by
  induction ys with
  | nil => exact .refl _
  | cons y ys ih =>
    rw [placeBy]
    split
    · exact .refl _
    · exact (ih.cons y).trans (.swap x y ys)

theorem perm_sortBy (l : List α) : (sortBy key l).Perm l := by
  induction l with
  | nil => exact .refl _
  | cons x xs ih => exact (perm_placeBy x _).trans (ih.cons x)

theorem pairwise_placeBy {x : α} {ys : List α} (h : ys.Pairwise (key · ≤ key ·)) :
    (placeBy key x ys).Pairwise (key · ≤ key ·) := by
  induction ys with
  | nil => simp [placeBy]
  | cons y ys ih =>
    have hy := List.pairwise_cons.1 h
    rw [placeBy]
    split
    · rename_i hxy
      refine List.pairwise_cons.2 ⟨fun b hb => ?_, h⟩
      rcases List.mem_cons.1 hb with rfl | hb
      · exact hxy
      · exact Nat.le_trans hxy (hy.1 b hb)
    · rename_i hxy
      refine List.pairwise_cons.2 ⟨fun b hb => ?_, ih hy.2⟩
      rcases List.mem_cons.1 ((perm_placeBy x ys).mem_iff.1 hb) with rfl | hb
      · omega
      · exact hy.1 b hb

theorem pairwise_sortBy (l : List α) : (sortBy key l).Pairwise (key · ≤ key ·) := by
  induction l with
  | nil => exact .nil
  | cons x xs ih => exact pairwise_placeBy ih

end Subdomain

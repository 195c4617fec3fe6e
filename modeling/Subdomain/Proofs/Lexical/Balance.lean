import Subdomain.Proofs.Lexical.Cursor
import Subdomain.Proofs.Outcome

/-!
# Readings that come back

`Returns` says of a reading what its caller relies on when it goes on: the depth is the one
at which the reading began, and the place is further on in the tokens and not behind their
end. `Siblings Next c i d` says that `i` parts of the same expression, each with the
operator behind it, stand between two cursors, where `Next` steps over one of them.
-/

namespace Subdomain

variable {κ α : Type}

/-- Whatever the reading gives that begins at a place in the tokens, it is at its own depth again,
and at a later place or at the end. -/
def Returns (ts : List (Token κ)) (place depth : Nat)
    (r : Except Fault (Parsed κ α ⟨ts.drop place, depth⟩)) : Prop :=
  ∀ p, r = .ok p → p.next.depth = depth ∧
    ∃ later, place < later ∧ later ≤ ts.length ∧ p.next.rest = ts.drop later

theorem exists_later {ts us rest : List (Token κ)} {place : Nat} (h : ts.drop place = us ++ rest)
    (hshort : rest.length < (ts.drop place).length) :
    ∃ later, place < later ∧ later ≤ ts.length ∧ rest = ts.drop later := by
  have hlength := congrArg List.length h
  rw [List.length_append] at hlength
  rw [List.length_drop] at hlength hshort
  refine ⟨place + us.length, by omega, by omega, ?_⟩
  rw [← List.drop_drop, h, List.drop_left]

/-- A reading that takes tokens from the front and keeps the depth comes back. -/
theorem returns_of_gives {ts : List (Token κ)} {place depth : Nat}
    {r : Except Fault (Parsed κ α ⟨ts.drop place, depth⟩)}
    (h : ∀ a c', Gives r a c' → ∃ us, ts.drop place = us ++ c'.rest ∧ depth = c'.depth) :
    Returns ts place depth r := by
  intro p hp
  obtain ⟨us, hr, hd⟩ := h p.value p.next ⟨p, hp, rfl, rfl⟩
  exact ⟨hd.symm, exists_later hr p.shorter⟩

/-- `i` parts stand between `c` and the cursor. -/
inductive Siblings (Next : Cursor κ → Cursor κ → Prop) (c : Cursor κ) : Nat → Cursor κ → Prop where
  | zero : Siblings Next c 0 c
  | succ {i : Nat} {d e : Cursor κ} : Siblings Next c i d → Next d e → Siblings Next c (i + 1) e

namespace Siblings

variable {Next : Cursor κ → Cursor κ → Prop} {i : Nat} {c d : Cursor κ}

/-- Parts that take a level each. -/
theorem depth_eq_add (h : Siblings Next c i d) (hnext : ∀ d e, Next d e → e.depth = d.depth + 1) :
    d.depth = c.depth + i := by
  induction h with
  | zero => rfl
  | succ _ hde ih => rw [hnext _ _ hde, ih, Nat.add_assoc]

/-- Parts that take no level. -/
theorem depth_eq (h : Siblings Next c i d)
    (hnext : ∀ d e, d.depth = c.depth → Next d e → e.depth = d.depth) : d.depth = c.depth := by
  induction h with
  | zero => rfl
  | succ _ hde ih => rw [hnext _ _ ih hde, ih]

/-- What no part changes is not changed by any number of them. -/
theorem iff {P : Cursor κ → Prop} (h : Siblings Next c i d)
    (hnext : ∀ d e, Next d e → (P d ↔ P e)) : P c ↔ P d := by
  induction h with
  | zero => exact Iff.rfl
  | succ _ hde ih => exact ih.trans (hnext _ _ hde)

end Siblings

end Subdomain

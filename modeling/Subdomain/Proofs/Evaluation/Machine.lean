import Subdomain.Evaluation.Run
import Subdomain.Selection.Parser
import Subdomain.Proofs.Region.Raises

/-!
# The stack machine and the tree

Running the program of a tree gives what evaluating the tree gives, the first
error included (`runFrom_program`). `Reaches p s s'` says that a program runs
through, from the stack `s` to the stack `s'`. A run calls an expression malformed
exactly where it comes, without an earlier failure, to an operator with fewer than
two operands or to the end with other than one (`Starved`).
-/

namespace Subdomain

namespace Context

open Selection

variable {x : Context}

/-! ## Steps -/

theorem runFrom_nil {s : List Region} (h : s.length ≠ 1) :
    x.runFrom s [] = .error (.malformedExpression s.length) := by
  match s, h with
  | [], _ => rfl
  | _ :: _ :: _, _ => rfl

theorem runFrom_push {s : List Region} {l : Leaf} {p : Program} :
    x.runFrom s (.push l :: p) = x.evalLeaf l >>= fun r => x.runFrom (r :: s) p := by
  rw [runFrom]

theorem runFrom_apply {s : List Region} {a b : Region} {o : SetOperator} {p : Program} :
    x.runFrom (b :: a :: s) (.apply o :: p) =
      Region.combine x.topology o a b >>= fun r => x.runFrom (r :: s) p := by
  rw [runFrom]

theorem runFrom_apply_short {s : List Region} {o : SetOperator} {p : Program}
    (h : s.length < 2) : x.runFrom s (.apply o :: p) = .error (.malformedExpression s.length) := by
  match s, h with
  | [], _ => rfl
  | [_], _ => rfl

/-! ## Programs of trees -/

/-- The program of a tree, run in front of any other, pushes the region of the tree. -/
theorem runFrom_program (t : Tree) (s : List Region) (p : Program) :
    x.runFrom s (t.program ++ p) = x.evalTree t >>= fun r => x.runFrom (r :: s) p := by
  induction t generalizing s p with
  | leaf l =>
    rw [Tree.program, List.singleton_append, runFrom_push, evalTree]
  | combine a o b iha ihb =>
    rw [Tree.program, List.append_assoc, List.append_assoc, iha, evalTree, bind_assoc]
    congr 1
    funext r
    rw [ihb, bind_assoc]
    rfl

theorem run_program (t : Tree) : x.run t.program = x.evalTree t := by
  have h := runFrom_program (x := x) t [] []
  rw [List.append_nil] at h
  rw [run, h]
  exact bind_pure _

theorem plain_evalTree (t : Tree) : Plain (x.evalTree t) := by
  induction t with
  | leaf l => exact plain_evalLeaf
  | combine a o b iha ihb =>
    exact iha.bind fun _ _ => ihb.bind fun _ _ => Region.plain_combine

theorem formed_evalTree (t : Tree) : Formed (x.evalTree t) := (plain_evalTree t).formed

/-! ## Any program -/

variable (x) in
/-- A program runs through without a failure, from one stack to another. -/
inductive Reaches : Program → List Region → List Region → Prop where
  | done (s : List Region) : Reaches [] s s
  | push {l : Leaf} {r : Region} {p : Program} {s s' : List Region} :
      x.evalLeaf l = .ok r → Reaches p (r :: s) s' → Reaches (.push l :: p) s s'
  | apply {o : SetOperator} {a b r : Region} {p : Program} {s s' : List Region} :
      Region.combine x.topology o a b = .ok r → Reaches p (r :: s) s' →
      Reaches (.apply o :: p) (b :: a :: s) s'

variable (x) in
/-- From the stack `s` the program comes to an operator with `n < 2` operands, or to its end with
`n ≠ 1`. -/
def Starved (s : List Region) (p : Program) (n : Nat) : Prop :=
  (∃ q o rest s', p = q ++ .apply o :: rest ∧ x.Reaches q s s' ∧ s'.length = n ∧ n < 2) ∨
    ∃ s', x.Reaches p s s' ∧ s'.length = n ∧ n ≠ 1

theorem starved_nil {s : List Region} {n : Nat} :
    x.Starved s [] n ↔ s.length = n ∧ n ≠ 1 := by
  constructor
  · rintro (⟨q, o, rest, s', hp, -⟩ | ⟨s', hp, hn⟩)
    · simp at hp
    · cases hp
      exact hn
  · intro h
    exact .inr ⟨s, .done s, h⟩

theorem starved_push {l : Leaf} {p : Program} {s : List Region} {n : Nat} :
    x.Starved s (.push l :: p) n ↔ ∃ r, x.evalLeaf l = .ok r ∧ x.Starved (r :: s) p n := by
  constructor
  · rintro (⟨q, o, rest, s', hp, hq, hn⟩ | ⟨s', hp, hn⟩)
    · cases hq with
      | done => cases hp
      | push hl hq =>
        cases hp
        exact ⟨_, hl, .inl ⟨_, o, rest, s', rfl, hq, hn⟩⟩
      | apply => cases hp
    · cases hp with
      | push hl hp => exact ⟨_, hl, .inr ⟨s', hp, hn⟩⟩
  · rintro ⟨r, hl, ⟨q, o, rest, s', rfl, hq, hn⟩ | ⟨s', hp, hn⟩⟩
    · exact .inl ⟨.push l :: q, o, rest, s', rfl, .push hl hq, hn⟩
    · exact .inr ⟨s', .push hl hp, hn⟩

theorem starved_apply {o : SetOperator} {a b : Region} {p : Program} {s : List Region} {n : Nat} :
    x.Starved (b :: a :: s) (.apply o :: p) n ↔
      ∃ r, Region.combine x.topology o a b = .ok r ∧ x.Starved (r :: s) p n := by
  constructor
  · rintro (⟨q, o', rest, s', hp, hq, hn, hlt⟩ | ⟨s', hp, hn⟩)
    · cases hq with
      | done =>
        simp only [List.length_cons] at hn
        omega
      | push => cases hp
      | apply hc hq =>
        cases hp
        exact ⟨_, hc, .inl ⟨_, o', rest, s', rfl, hq, hn, hlt⟩⟩
    · cases hp with
      | apply hc hp => exact ⟨_, hc, .inr ⟨s', hp, hn⟩⟩
  · rintro ⟨r, hc, ⟨q, o', rest, s', rfl, hq, hn⟩ | ⟨s', hp, hn⟩⟩
    · exact .inl ⟨.apply o :: q, o', rest, s', rfl, .apply hc hq, hn⟩
    · exact .inr ⟨s', .apply hc hp, hn⟩

theorem starved_apply_short {o : SetOperator} {p : Program} {s : List Region} {n : Nat}
    (h : s.length < 2) : x.Starved s (.apply o :: p) n ↔ s.length = n := by
  constructor
  · rintro (⟨q, o', rest, s', hp, hq, hn, -⟩ | ⟨s', hp, -⟩)
    · cases hq with
      | done => exact hn
      | push => cases hp
      | apply =>
        simp only [List.length_cons] at h
        omega
    · cases hp
      simp only [List.length_cons] at h
      omega
  · intro hn
    exact .inl ⟨[], o, p, s, rfl, .done s, hn, hn ▸ h⟩

/-- What fails otherwise itself leaves it to the rest to call an expression malformed. -/
theorem bind_eq_malformed_iff {m : Except RegionError Region} (hm : Formed m)
    {f : Region → Except RegionError Region} {n : Nat} :
    m >>= f = .error (.malformedExpression n) ↔
      ∃ r, m = .ok r ∧ f r = .error (.malformedExpression n) := by
  cases m with
  | error e =>
    refine iff_of_false (fun h => ?_) (by simp)
    have he : e = .malformedExpression n := Except.error.inj h
    have := hm e rfl
    simp [he, RegionError.remaining?] at this
  | ok r => exact ⟨fun h => ⟨r, rfl, h⟩, fun ⟨_, hr, h⟩ => Except.ok.inj hr ▸ h⟩

theorem runFrom_eq_malformed_iff (s : List Region) (p : Program) (n : Nat) :
    x.runFrom s p = .error (.malformedExpression n) ↔ x.Starved s p n := by
  induction p generalizing s with
  | nil =>
    rw [starved_nil]
    by_cases h : s.length = 1
    · obtain ⟨r, rfl⟩ := List.length_eq_one_iff.1 h
      simp only [runFrom, reduceCtorEq, false_iff, List.length_singleton]
      omega
    · rw [runFrom_nil h]
      simp only [Except.error.injEq, RegionError.malformedExpression.injEq]
      omega
  | cons i p ih =>
    cases i with
    | push l =>
      rw [runFrom_push, bind_eq_malformed_iff plain_evalLeaf.formed, starved_push]
      simp only [ih]
    | apply o =>
      match s with
      | [] | [_] =>
        rw [runFrom_apply_short (by simp), starved_apply_short (by simp)]
        simp only [Except.error.injEq, RegionError.malformedExpression.injEq]
      | b :: a :: s =>
        rw [runFrom_apply, bind_eq_malformed_iff Region.plain_combine.formed, starved_apply]
        simp only [ih]

/-- The stack machine agrees with the evaluation of trees; it calls a program malformed exactly if
the program starves, and never the program of a text. -/
theorem run_agrees (x : Context) :
    (∀ t : Tree, x.run t.program = x.evalTree t) ∧
    (∀ (p : Program) (n : Nat),
      x.run p = .error (.malformedExpression n) ↔ x.Starved [] p n) ∧
    (∀ (text : List Char) (p : Program), parse text = .ok p →
      ∀ n, x.run p ≠ .error (.malformedExpression n)) := by
  refine ⟨run_program, runFrom_eq_malformed_iff [], fun text p h n hn => ?_⟩
  obtain ⟨t, -, rfl⟩ := parse_eq_ok_iff.1 h
  rw [run_program] at hn
  have := formed_evalTree t _ hn
  simp [RegionError.remaining?] at this

end Context

end Subdomain

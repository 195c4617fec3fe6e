import Subdomain.Proofs.Predicate.Selecting

/-!
# The types of predicates

Whether an expression has a value, and if not why, does not depend on the point: no
operand is passed over, so evaluation meets all uses of operands in a fixed order
(`Expr.uses`) and fails at the first one whose operand is of the wrong type. An
expression has a type (`Expr.HasType`) exactly if all its uses fit. So a predicate is
either refused for every list of points that has any, or for none
(`Expr.staticallyTyped`).
-/

namespace Subdomain

namespace Predicate

/-! ## Types -/

inductive ValueType where
  | number
  | boolean
  deriving DecidableEq, Repr

/-- What is wrong with a value of the other type. -/
def ValueType.fault : ValueType → TypeFault
  | number => .expectedNumber
  | boolean => .expectedBoolean

def Value.type : Value → ValueType
  | number _ => .number
  | boolean _ => .boolean

/-- The type that an expression has if it has one. -/
def Expr.shape : Expr → ValueType
  | number _ | coordinate _ | neg _ | arith .. | call .. => .number
  | boolean _ | compl _ | compare .. | conj .. | disj .. => .boolean

mutual

inductive Expr.HasType : Expr → ValueType → Prop where
  | number {x : Float} : Expr.HasType (.number x) .number
  | boolean {b : Bool} : Expr.HasType (.boolean b) .boolean
  | coordinate {a : Axis} : Expr.HasType (.coordinate a) .number
  | neg {e : Expr} : e.HasType .number → Expr.HasType (.neg e) .number
  | compl {e : Expr} : e.HasType .boolean → Expr.HasType (.compl e) .boolean
  | arith {op : Arithmetic} {l r : Expr} :
      l.HasType .number → r.HasType .number → Expr.HasType (.arith op l r) .number
  | compare {first : Expr} {links : Links} :
      first.HasType .number → links.Numeric → Expr.HasType (.compare first links) .boolean
  | conj {l r : Expr} :
      l.HasType .boolean → r.HasType .boolean → Expr.HasType (.conj l r) .boolean
  | disj {l r : Expr} :
      l.HasType .boolean → r.HasType .boolean → Expr.HasType (.disj l r) .boolean
  | call {f : MathFunction} {e : Expr} : e.HasType .number → Expr.HasType (.call f e) .number

/-- All operands on the right of the comparisons are numbers. -/
inductive Links.Numeric : Links → Prop where
  | nil : Links.Numeric .nil
  | cons {op : Comparison} {e : Expr} {rest : Links} :
      e.HasType .number → rest.Numeric → Links.Numeric (.cons op e rest)

end

/-! ## Uses -/

/-- An operand that stands where a value of a type is required. -/
structure Use where
  operand : Expr
  required : ValueType

def Use.fault? (u : Use) : Option TypeFault :=
  if u.operand.shape = u.required then none else some u.required.fault

mutual

/-- The uses of operands in the order of evaluation: first what an operand uses itself, then the
operand. -/
def Expr.uses : Expr → List Use
  | .number _ | .boolean _ | .coordinate _ => []
  | .neg e | .call _ e => e.uses ++ [⟨e, .number⟩]
  | .compl e => e.uses ++ [⟨e, .boolean⟩]
  | .arith _ l r => (l.uses ++ [⟨l, .number⟩]) ++ (r.uses ++ [⟨r, .number⟩])
  | .compare first links => (first.uses ++ [⟨first, .number⟩]) ++ links.uses
  | .conj l r | .disj l r => (l.uses ++ [⟨l, .boolean⟩]) ++ (r.uses ++ [⟨r, .boolean⟩])

def Links.uses : Links → List Use
  | .nil => []
  | .cons _ e rest => (e.uses ++ [⟨e, .number⟩]) ++ rest.uses

end

/-- What is wrong with the first use that does not fit. -/
def firstFault? (us : List Use) : Option TypeFault := us.findSome? Use.fault?

theorem firstFault?_append {us vs : List Use} :
    firstFault? (us ++ vs) = (firstFault? us).or (firstFault? vs) :=
  List.findSome?_append

/-! ## Evaluation -/

/-- Evaluation fails with the given fault, or it gives a value of which `P` holds. -/
def Answers {α : Type} (fault? : Option TypeFault) (r : Except TypeFault α) (P : α → Prop) : Prop :=
  (∃ a, fault? = none ∧ r = .ok a ∧ P a) ∨ ∃ f, fault? = some f ∧ r = .error f

section

variable {α β : Type} {f g : Option TypeFault} {r : Except TypeFault α} {P : α → Prop}
  {Q : β → Prop}

theorem answers_ok {a : α} (h : P a) : Answers none (.ok a) P := .inl ⟨a, rfl, rfl, h⟩

theorem Answers.bind (h : Answers f r P) {k : α → Except TypeFault β}
    (hk : ∀ a, P a → Answers g (k a) Q) : Answers (f.or g) (r >>= k) Q := by
  rcases h with ⟨a, rfl, rfl, ha⟩ | ⟨t, rfl, rfl⟩
  · exact hk a ha
  · exact .inr ⟨t, rfl, rfl⟩

/-- What comes after the last operand cannot fail. -/
theorem Answers.map (h : Answers f r P) {k : α → β} (hk : ∀ a, P a → Q (k a)) :
    Answers f (r >>= fun a => pure (k a)) Q := by
  rw [← Option.or_none (o := f)]
  exact h.bind fun a ha => answers_ok (hk a ha)

theorem answers_asNumber {v : Value} {e : Expr} (h : v.type = e.shape) :
    Answers (Use.fault? ⟨e, .number⟩) v.asNumber fun _ => True := by
  unfold Use.fault?
  cases v with
  | number x => rw [← h]; exact answers_ok trivial
  | boolean b => rw [← h]; exact .inr ⟨_, rfl, rfl⟩

theorem answers_asBoolean {v : Value} {e : Expr} (h : v.type = e.shape) :
    Answers (Use.fault? ⟨e, .boolean⟩) v.asBoolean fun _ => True := by
  unfold Use.fault?
  cases v with
  | number x => rw [← h]; exact .inr ⟨_, rfl, rfl⟩
  | boolean b => rw [← h]; exact answers_ok trivial

end

section

variable {p : Point} {e : Expr}

theorem firstFault?_use {t : ValueType} :
    firstFault? (e.uses ++ [⟨e, t⟩]) = (firstFault? e.uses).or (Use.fault? ⟨e, t⟩) := by
  rw [firstFault?_append]
  cases h : Use.fault? ⟨e, t⟩ <;> simp [firstFault?, h]

/-- An operand is evaluated and then used as a number. -/
theorem Answers.number (h : Answers (firstFault? e.uses) (e.eval p) (·.type = e.shape)) :
    Answers (firstFault? (e.uses ++ [⟨e, .number⟩])) (do (← e.eval p).asNumber) fun _ => True := by
  rw [firstFault?_use]
  exact h.bind fun _ => answers_asNumber

theorem Answers.boolean (h : Answers (firstFault? e.uses) (e.eval p) (·.type = e.shape)) :
    Answers (firstFault? (e.uses ++ [⟨e, .boolean⟩])) (do (← e.eval p).asBoolean)
      fun _ => True := by
  rw [firstFault?_use]
  exact h.bind fun _ => answers_asBoolean

mutual

theorem answers_eval (p : Point) (e : Expr) :
    Answers (firstFault? e.uses) (e.eval p) (·.type = e.shape) := by
  match e with
  | .number _ | .boolean _ | .coordinate _ =>
    rw [Expr.uses, Expr.eval]
    exact answers_ok rfl
  | .neg e | .call _ e =>
    rw [Expr.uses, Expr.eval, ← bind_assoc]
    exact (answers_eval p e).number.map fun _ _ => rfl
  | .compl e =>
    rw [Expr.uses, Expr.eval, ← bind_assoc]
    exact (answers_eval p e).boolean.map fun _ _ => rfl
  | .arith _ l r =>
    rw [Expr.uses, Expr.eval, ← bind_assoc, firstFault?_append]
    refine (answers_eval p l).number.bind fun _ _ => ?_
    rw [← bind_assoc]
    exact (answers_eval p r).number.map fun _ _ => rfl
  | .compare first links =>
    rw [Expr.uses, Expr.eval, ← bind_assoc, firstFault?_append]
    exact (answers_eval p first).number.bind fun a _ => (answers_hold p a links).map fun _ _ => rfl
  | .conj l r | .disj l r =>
    rw [Expr.uses, Expr.eval, ← bind_assoc, firstFault?_append]
    refine (answers_eval p l).boolean.bind fun _ _ => ?_
    rw [← bind_assoc]
    exact (answers_eval p r).boolean.map fun _ _ => rfl

theorem answers_hold (p : Point) (left : Float) (links : Links) :
    Answers (firstFault? links.uses) (links.hold p left) fun _ => True := by
  match links with
  | .nil =>
    rw [Links.uses, Links.hold]
    exact answers_ok trivial
  | .cons _ e rest =>
    rw [Links.uses, Links.hold, ← bind_assoc, firstFault?_append]
    exact (answers_eval p e).number.bind fun a _ => (answers_hold p a rest).map fun _ _ => trivial

end

theorem Answers.eq_error_iff {α : Type} {f : Option TypeFault} {r : Except TypeFault α}
    {P : α → Prop} (h : Answers f r P) {t : TypeFault} : r = .error t ↔ f = some t := by
  rcases h with ⟨a, rfl, rfl, -⟩ | ⟨u, rfl, rfl⟩ <;> simp

/-! ## Well-typed expressions -/

theorem firstFault?_use_eq_none_iff {t : ValueType} :
    firstFault? (e.uses ++ [⟨e, t⟩]) = none ↔ firstFault? e.uses = none ∧ e.shape = t := by
  rw [firstFault?_use, Option.or_eq_none_iff, Use.fault?]
  simp

mutual

theorem hasType_iff (e : Expr) (t : ValueType) :
    e.HasType t ↔ firstFault? e.uses = none ∧ e.shape = t := by
  match e with
  | .number _ | .boolean _ | .coordinate _ =>
    rw [Expr.uses]
    constructor
    · rintro ⟨⟩
      exact ⟨rfl, rfl⟩
    · rintro ⟨-, rfl⟩
      constructor
  | .neg e | .compl e | .call _ e =>
    rw [Expr.uses, firstFault?_use_eq_none_iff, ← hasType_iff e]
    constructor
    · rintro ⟨h⟩
      exact ⟨by assumption, rfl⟩
    · rintro ⟨h, rfl⟩
      constructor
      exact h
  | .arith _ l r | .conj l r | .disj l r =>
    rw [Expr.uses, firstFault?_append, Option.or_eq_none_iff, firstFault?_use_eq_none_iff,
      firstFault?_use_eq_none_iff, ← hasType_iff l, ← hasType_iff r]
    constructor
    · rintro ⟨h⟩
      exact ⟨⟨by assumption, by assumption⟩, rfl⟩
    · rintro ⟨⟨hl, hr⟩, rfl⟩
      constructor
      · exact hl
      · exact hr
  | .compare first links =>
    rw [Expr.uses, firstFault?_append, Option.or_eq_none_iff, firstFault?_use_eq_none_iff,
      ← hasType_iff first, ← numeric_iff links]
    constructor
    · rintro ⟨h⟩
      exact ⟨⟨by assumption, by assumption⟩, rfl⟩
    · rintro ⟨⟨hfirst, hlinks⟩, rfl⟩
      exact .compare hfirst hlinks

theorem numeric_iff (links : Links) : links.Numeric ↔ firstFault? links.uses = none := by
  match links with
  | .nil =>
    rw [Links.uses]
    exact iff_of_true .nil rfl
  | .cons _ e rest =>
    rw [Links.uses, firstFault?_append, Option.or_eq_none_iff, firstFault?_use_eq_none_iff,
      ← hasType_iff e, ← numeric_iff rest]
    constructor
    · rintro ⟨⟩
      exact ⟨by assumption, by assumption⟩
    · rintro ⟨he, hrest⟩
      exact .cons he hrest

end

theorem eval_eq_ok_iff {t : ValueType} :
    (∃ v, e.eval p = .ok v ∧ v.type = t) ↔ e.HasType t := by
  rw [hasType_iff]
  rcases answers_eval p e with ⟨v, hnone, hv, htype⟩ | ⟨f, hf, herror⟩
  · simp [hnone, hv, htype]
  · simp [hf, herror]

/-! ## Selection -/

theorem answers_holds (p : Point) (e : Expr) :
    Answers (firstFault? (e.uses ++ [⟨e, .boolean⟩])) (e.holds p) fun _ => True :=
  (answers_eval p e).boolean

theorem exists_holds (h : e.HasType .boolean) (p : Point) : ∃ b, e.holds p = .ok b := by
  have hfault := firstFault?_use_eq_none_iff.2 ((hasType_iff e .boolean).1 h)
  rcases answers_holds p e with ⟨b, -, hb, -⟩ | ⟨f, hf, -⟩
  · exact ⟨b, hb⟩
  · cases hfault.symm.trans hf

/-- The first point is enough to refuse an expression that is no condition. -/
theorem exists_selectFrom_eq_error (h : ¬ e.HasType .boolean) :
    ∃ f, ∀ n p ps, e.selectFrom n (p :: ps) = .error f := by
  rw [hasType_iff, ← firstFault?_use_eq_none_iff] at h
  obtain ⟨f, hf⟩ := Option.ne_none_iff_exists'.1 h
  refine ⟨f, fun n p ps => ?_⟩
  rw [Expr.selectFrom, (answers_holds p e).eq_error_iff.2 hf]
  rfl

theorem pairwise_selectFrom {coors : List Point} {n : Nat} {vs : List Nat}
    (h : e.selectFrom n coors = .ok vs) : vs.Pairwise (· < ·) := by
  induction coors generalizing n vs with
  | nil =>
    cases h
    exact .nil
  | cons p ps ih =>
    rw [Expr.selectFrom] at h
    cases hp : e.holds p with
    | error f =>
      rw [hp] at h
      cases h
    | ok b =>
      cases hps : e.selectFrom (n + 1) ps with
      | error f =>
        rw [hp, hps] at h
        cases h
      | ok rest =>
        rw [hp, hps] at h
        obtain rfl : (if b then n :: rest else rest) = vs := Except.ok.inj h
        have hrest := ih hps
        cases b with
        | false => exact hrest
        | true => exact .cons (fun v hv => (((mem_of_selectFrom hps).2 v).1 hv).1) hrest

end

/-- The type of an expression decides what evaluation does at any point, and on which lists of
points selection succeeds. -/
structure Expr.StaticallyTyped (e : Expr) : Prop where
  value : ∀ p t, (∃ v, e.eval p = .ok v ∧ v.type = t) ↔ e.HasType t
  fault : ∀ p f, e.eval p = .error f ↔ firstFault? e.uses = some f
  select : ∀ text dim,
    ((∀ a ∈ e.axes, a.index < dim) ∧ e.HasType .boolean ∧ ∀ coors, ∃ vs,
      (⟨text, e⟩ : Predicate).select dim coors = .ok vs ∧ vs.Pairwise (· < ·) ∧
        ∀ v ∈ vs, v < coors.length) ∨
    ∃ f, ∀ coors, coors ≠ [] → (⟨text, e⟩ : Predicate).select dim coors = .error f

theorem Expr.staticallyTyped (e : Expr) : e.StaticallyTyped where
  value _ _ := eval_eq_ok_iff
  fault p _ := (answers_eval p e).eq_error_iff
  select text dim := by
    unfold Predicate.select
    cases hmax : e.maxAxis?.filter (dim ≤ ·.index) with
    | some a => exact .inr ⟨_, fun _ _ => rfl⟩
    | none =>
      have haxes := filter_maxAxis?_eq_none_iff.1 hmax
      by_cases htype : e.HasType .boolean
      · refine .inl ⟨haxes, htype, fun coors => ?_⟩
        obtain ⟨vs, hvs⟩ := exists_selectFrom (fun p _ => exists_holds htype p) 0
        refine ⟨vs, by rw [hvs]; rfl, pairwise_selectFrom hvs, fun v hv => ?_⟩
        obtain ⟨-, p, hp, -⟩ := ((mem_of_selectFrom hvs).2 v).1 hv
        exact (List.getElem?_eq_some_iff.1 hp).1
      · obtain ⟨f, hf⟩ := exists_selectFrom_eq_error htype
        refine .inr ⟨.mistyped f, fun coors hne => ?_⟩
        obtain ⟨p, ps, rfl⟩ := List.exists_cons_of_ne_nil hne
        rw [hf]
        rfl

/-- The second operand is no condition, wherever the first one holds. -/
example : firstFault? (Expr.disj (.boolean true) (.coordinate .x)).uses = some .expectedBoolean :=
  rfl

end Predicate

end Subdomain

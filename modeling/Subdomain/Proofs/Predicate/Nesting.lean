import Subdomain.Proofs.Predicate.Depth
import Subdomain.Proofs.Predicate.Operands

/-!
# How deep derived expressions are

A derivation within `n` levels bounds the operands that stand behind their operators
(`DerivesIn.opensWithin`). An operand in front of its operator was read before the
operator took its level: a chain may stand on top of an operand that took all levels
itself, and so on at every level of the grammar. So what the levels bound on a path
through the expression is a square in them (`DerivesIn.nestsWithin`).
-/

namespace Subdomain

namespace Predicate

/-! ## Paths -/

/-- Whether an expression is that of an operator that takes a level, or of a function. -/
def Expr.deepens : Expr → Bool
  | .neg _ | .compl _ | .call _ _ | .arith _ _ _ | .conj _ _ | .disj _ _ => true
  | .number _ | .boolean _ | .coordinate _ | .compare _ _ => false

/-- The operand in front of an operator that joins two. -/
def Expr.front : Expr → List Expr
  | .arith _ l _ | .conj l _ | .disj l _ => [l]
  | .number _ | .boolean _ | .coordinate _ | .neg _ | .compl _ | .call _ _ | .compare _ _ => []

/-- The other operands. -/
def Expr.behind : Expr → List Expr
  | .number _ | .boolean _ | .coordinate _ => []
  | .neg e | .compl e | .call _ e => [e]
  | .arith _ _ r | .conj _ r | .disj _ r => [r]
  | .compare first links => first :: links.operands

/-- The expressions on a way from the whole to an expression without operands, with `i` steps to the
operand in front of an operator. -/
inductive Expr.Path : Expr → Nat → List Expr → Prop where
  | leaf {e : Expr} : e.operands = [] → Path e 0 [e]
  | front {e e' : Expr} {i : Nat} {es : List Expr} :
      e' ∈ e.front → Path e' i es → Path e (i + 1) (e :: es)
  | behind {e e' : Expr} {i : Nat} {es : List Expr} :
      e' ∈ e.behind → Path e' i es → Path e i (e :: es)

/-- On every path at most `n` expressions deepen it, those apart that it leaves by a step to the
front. -/
def Expr.OpensWithin (n : Nat) (e : Expr) : Prop :=
  ∀ i es, e.Path i es → es.countP Expr.deepens ≤ n + i

/-- On every path at most `a` expressions deepen it, and at most `b` do not. -/
def Expr.NestsWithin (a b : Nat) (e : Expr) : Prop :=
  ∀ i es, e.Path i es → es.countP Expr.deepens ≤ a ∧ es.length ≤ es.countP Expr.deepens + b

/-- On some path `a` expressions deepen it, and `b` do not. -/
def Expr.HasPath (a b : Nat) (e : Expr) : Prop :=
  ∃ i es, e.Path i es ∧ es.countP Expr.deepens = a ∧ es.length = a + b

section

variable {n m a a' b b' : Nat} {e e' : Expr}

theorem Expr.operands_eq (e : Expr) : e.operands = e.front ++ e.behind := by
  cases e <;> rfl

theorem Expr.deepens_of_no_operands (h : e.operands = []) : e.deepens = false := by
  cases e <;> first | rfl | cases h

/-- A path is that of an expression without operands or goes on at an operand. -/
theorem Expr.Path.cases_operands {i : Nat} {es : List Expr} (h : e.Path i es) :
    e.operands = [] ∧ es = [e] ∨
      ∃ e' ∈ e.operands, ∃ i' es', e'.Path i' es' ∧ es = e :: es' := by
  rw [e.operands_eq]
  cases h with
  | leaf h => exact .inl ⟨e.operands_eq ▸ h, rfl⟩
  | front hmem h => exact .inr ⟨_, List.mem_append_left _ hmem, _, _, h, rfl⟩
  | behind hmem h => exact .inr ⟨_, List.mem_append_right _ hmem, _, _, h, rfl⟩

theorem Expr.OpensWithin.mono (h : e.OpensWithin n) (hm : n ≤ m) : e.OpensWithin m :=
  fun i es hes => Nat.le_trans (h i es hes) (Nat.add_le_add_right hm i)

theorem Expr.NestsWithin.mono (h : e.NestsWithin a b) (ha : a ≤ a') (hb : b ≤ b') :
    e.NestsWithin a' b' := fun i es hes => by
  have := h i es hes
  omega

/-- What deepens an expression takes a level from the operands behind it, but none from the operand
in front. -/
theorem Expr.opensWithin_of_deepens (he : e.deepens = true)
    (hfront : ∀ e' ∈ e.front, e'.OpensWithin m) (hbehind : ∀ e' ∈ e.behind, e'.OpensWithin n)
    (hm : n + 1 ≤ m) : e.OpensWithin m := by
  intro i es hes
  cases hes with
  | leaf hleaf => simp [deepens_of_no_operands hleaf] at he
  | front hmem hes =>
    have := hfront _ hmem _ _ hes
    rw [List.countP_cons_of_pos he]
    omega
  | behind hmem hes =>
    have := hbehind _ hmem _ _ hes
    rw [List.countP_cons_of_pos he]
    omega

theorem Expr.opensWithin_of_not_deepens (he : e.deepens = false)
    (h : ∀ e' ∈ e.operands, e'.OpensWithin n) : e.OpensWithin n := by
  rw [e.operands_eq] at h
  intro i es hes
  cases hes with
  | leaf => simp [he]
  | front hmem hes =>
    rw [List.countP_cons_of_neg (by simp [he])]
    exact Nat.le_succ_of_le (h _ (List.mem_append_left _ hmem) _ _ hes)
  | behind hmem hes =>
    rw [List.countP_cons_of_neg (by simp [he])]
    exact h _ (List.mem_append_right _ hmem) _ _ hes

theorem Expr.nestsWithin_of_deepens (he : e.deepens = true)
    (h : ∀ e' ∈ e.operands, e'.NestsWithin a b) : e.NestsWithin (a + 1) b := by
  intro i es hes
  rcases hes.cases_operands with ⟨hleaf, -⟩ | ⟨e', hmem, i', es', hes', rfl⟩
  · simp [deepens_of_no_operands hleaf] at he
  · have := h _ hmem _ _ hes'
    rw [List.countP_cons_of_pos he, List.length_cons]
    omega

theorem Expr.nestsWithin_of_not_deepens (he : e.deepens = false)
    (h : ∀ e' ∈ e.operands, e'.NestsWithin a b) : e.NestsWithin a (b + 1) := by
  intro i es hes
  rcases hes.cases_operands with ⟨-, rfl⟩ | ⟨e', hmem, i', es', hes', rfl⟩
  · simp [he]
  · have := h _ hmem _ _ hes'
    rw [List.countP_cons_of_neg (by simp [he]), List.length_cons]
    omega

theorem Expr.Path.exists_cons (hmem : e' ∈ e.operands) {i : Nat} {es : List Expr}
    (h : e'.Path i es) : ∃ i', e.Path i' (e :: es) := by
  rw [e.operands_eq] at hmem
  rcases List.mem_append.1 hmem with hmem | hmem
  · exact ⟨_, .front hmem h⟩
  · exact ⟨_, .behind hmem h⟩

theorem Expr.HasPath.of_deepens (h : e'.HasPath a b) (hmem : e' ∈ e.operands)
    (he : e.deepens = true) : e.HasPath (a + 1) b := by
  obtain ⟨i, es, hes, hcount, hlength⟩ := h
  obtain ⟨i', hes⟩ := hes.exists_cons hmem
  refine ⟨i', _, hes, by rw [List.countP_cons_of_pos he, hcount], ?_⟩
  rw [List.length_cons, hlength]
  omega

theorem Expr.HasPath.of_not_deepens (h : e'.HasPath a b) (hmem : e' ∈ e.operands)
    (he : e.deepens = false) : e.HasPath a (b + 1) := by
  obtain ⟨i, es, hes, hcount, hlength⟩ := h
  obtain ⟨i', hes⟩ := hes.exists_cons hmem
  refine ⟨i', _, hes, by rw [List.countP_cons_of_neg (by simp [he]), hcount], ?_⟩
  rw [List.length_cons, hlength, Nat.add_assoc]

end

/-! ## What the levels bound -/

theorem operands_of_constant? {name : List Char} {e : Expr} (h : constant? name = some e) :
    e.operands = [] := by
  unfold constant? at h
  split at h
  · cases h; rfl
  split at h
  · cases h; rfl
  split at h
  · cases h; rfl
  split at h
  · cases h; rfl
  · cases h

theorem operands_of_leaf? {t : Token Word} {e : Expr} (h : leaf? t = some e) :
    e.operands = [] := by
  unfold leaf? literal? at h
  split at h
  · exact operands_of_constant? h
  split at h <;> cases h <;> rfl

theorem operands_of_node? {k : Chain} {t : Token Word} {f : Expr → Expr → Expr}
    (h : k.node? t = some f) (l r : Expr) :
    (f l r).deepens = true ∧ (f l r).front = [l] ∧ (f l r).behind = [r] := by
  unfold Chain.node? at h
  split at h <;> cases h <;> exact ⟨rfl, rfl, rfl⟩

/-- How many operators and functions an expression read with `n` levels can have on a path: a chain
adds as many to those of its operands as there are levels, and inside parentheses all begins again
with a level less. -/
def Level.limit (n : Nat) : Level → Nat
  | .atom => 2 * (n * n) - 1
  | .power | .unary => 2 * (n * n)
  | .chain .product => 2 * (n * n) + n
  | .chain .sum | .comparison | .negation => 2 * (n * n) + 2 * n
  | .chain .conjunction => 2 * (n * n) + 3 * n
  | .chain .disjunction => 2 * (n * n) + 4 * n

/-- How many comparisons and literals it can have on a path. -/
def Level.others (n : Nat) : Level → Nat
  | .atom | .power | .unary | .chain .product | .chain .sum => n + 1
  | .comparison | .negation | .chain .conjunction | .chain .disjunction => n + 2

theorem square_succ (n : Nat) : (n + 1) * (n + 1) = n * n + 2 * n + 1 := by
  rw [Nat.succ_mul, Nat.mul_succ]
  omega

theorem Chain.limit_eq (n : Nat) (k : Chain) :
    (Level.chain k).limit n = k.operands.limit n + n := by
  cases k <;> simp only [Level.limit, Chain.operands] <;> omega

theorem Chain.others_eq (n : Nat) (k : Chain) : (Level.chain k).others n = k.operands.others n := by
  cases k <;> rfl

theorem Chain.limit_operands_le (n : Nat) (k : Chain) :
    k.operands.limit n ≤ k.operands.limit (n + 1) := by
  cases k <;> simp only [Level.limit, Chain.operands, square_succ] <;> omega

theorem Chain.others_operands_le (n : Nat) (k : Chain) :
    k.operands.others n ≤ k.operands.others (n + 1) := by
  cases k <;> simp [Level.others, Chain.operands]

mutual

/-- What is read with `n` levels opens no more of them at a time. -/
theorem DerivesIn.opensWithin {n : Nat} {l : Level} {ts : Tokens} {e : Expr}
    (h : DerivesIn n l ts e) : e.OpensWithin n := by
  match h with
  | .chain h hrest => exact hrest.opensWithin h.opensWithin (Nat.le_refl n)
  | .compared h | .single h | .unsigned h | .base h => exact h.opensWithin
  | .plus _ h | .parens _ h _ => exact h.opensWithin.mono (Nat.le_succ _)
  | .compl _ h | .minus _ h | .call _ _ h _ =>
    exact Expr.opensWithin_of_deepens rfl nofun (List.forall_mem_singleton.2 h.opensWithin)
      (Nat.le_refl _)
  | .compare h hl =>
    exact Expr.opensWithin_of_not_deepens rfl
      (List.forall_mem_cons.2 ⟨h.opensWithin, hl.opensWithin⟩)
  | .power h _ he =>
    exact Expr.opensWithin_of_deepens rfl (List.forall_mem_singleton.2 h.opensWithin)
      (List.forall_mem_singleton.2 he.opensWithin) (Nat.le_refl _)
  | .literal ht =>
    have hnone := operands_of_leaf? ht
    exact Expr.opensWithin_of_not_deepens (Expr.deepens_of_no_operands hnone) (by simp [hnone])

theorem RestIn.opensWithin {n m : Nat} {k : Chain} {ts : Tokens} {left e : Expr}
    (h : RestIn n k left ts e) (hleft : left.OpensWithin m) (hm : n ≤ m) : e.OpensWithin m := by
  match h with
  | .done => exact hleft
  | @RestIn.more _ _ _ _ _ _ _ right _ hop h hrest =>
    obtain ⟨hdeepens, hfront, hbehind⟩ := operands_of_node? hop left right
    refine hrest.opensWithin (Expr.opensWithin_of_deepens hdeepens ?_ ?_ hm) (Nat.le_of_succ_le hm)
    · rw [hfront]
      exact List.forall_mem_singleton.2 hleft
    · rw [hbehind]
      exact List.forall_mem_singleton.2 h.opensWithin

theorem LinksIn.opensWithin {n : Nat} {ts : Tokens} {links : Links} (h : LinksIn n ts links) :
    ∀ e ∈ links.operands, e.OpensWithin n := by
  match h with
  | .nil => exact nofun
  | .cons _ h hl => exact List.forall_mem_cons.2 ⟨h.opensWithin, hl.opensWithin⟩

end

theorem nestsWithin_of_node? {k : Chain} {t : Token Word} {f : Expr → Expr → Expr}
    (hop : k.node? t = some f) {a b : Nat} {l r : Expr} (hl : l.NestsWithin a b)
    (hr : r.NestsWithin a b) : (f l r).NestsWithin (a + 1) b := by
  obtain ⟨hdeepens, hfront, hbehind⟩ := operands_of_node? hop l r
  refine Expr.nestsWithin_of_deepens hdeepens ?_
  rw [Expr.operands_eq, hfront, hbehind]
  exact List.forall_mem_cons.2 ⟨hl, List.forall_mem_singleton.2 hr⟩

mutual

/-- What is read with `n` levels nests within the limit of its level in the grammar. -/
theorem DerivesIn.nestsWithin {n : Nat} {l : Level} {ts : Tokens} {e : Expr}
    (h : DerivesIn n l ts e) : e.NestsWithin (l.limit n) (l.others n) := by
  match h with
  | .chain (k := k) h hrest =>
    rw [k.limit_eq, k.others_eq]
    exact hrest.nestsWithin h.nestsWithin (Nat.le_refl _) (Nat.le_refl _)
  | .compared h | .unsigned h => exact h.nestsWithin
  | .single h => exact h.nestsWithin.mono (Nat.le_refl _) (Nat.le_succ _)
  | .base h => exact h.nestsWithin.mono (Nat.sub_le _ _) (Nat.le_refl _)
  | .compl _ h | .minus _ h =>
    refine .mono (Expr.nestsWithin_of_deepens rfl (List.forall_mem_singleton.2 h.nestsWithin)) ?_
      (Nat.le_succ _)
    simp only [Level.limit, square_succ]
    omega
  | .compare h hl =>
    exact Expr.nestsWithin_of_not_deepens rfl
      (List.forall_mem_cons.2 ⟨h.nestsWithin, hl.nestsWithin⟩)
  | .plus _ h =>
    refine h.nestsWithin.mono ?_ (Nat.le_succ _)
    simp only [Level.limit, square_succ]
    omega
  | .power h _ he =>
    refine .mono (Expr.nestsWithin_of_deepens rfl (List.forall_mem_cons.2
      ⟨h.nestsWithin, List.forall_mem_singleton.2 (he.nestsWithin.mono ?_ (Nat.le_succ _))⟩))
      ?_ (Nat.le_refl _)
    all_goals
      simp only [Level.limit, square_succ]
      omega
  | .literal ht =>
    have hnone := operands_of_leaf? ht
    refine Expr.nestsWithin_of_not_deepens (b := n) (Expr.deepens_of_no_operands hnone) ?_
    simp [hnone]
  | .parens _ h _ =>
    refine h.nestsWithin.mono ?_ (Nat.le_refl _)
    simp only [Level.limit, square_succ]
    omega
  | .call _ _ h _ =>
    refine .mono (Expr.nestsWithin_of_deepens rfl (List.forall_mem_singleton.2 h.nestsWithin)) ?_
      (Nat.le_refl _)
    simp only [Level.limit, square_succ]
    omega

/-- Every link of a chain may deepen the expression in front of it. -/
theorem RestIn.nestsWithin {n a b : Nat} {k : Chain} {ts : Tokens} {left e : Expr}
    (h : RestIn n k left ts e) (hleft : left.NestsWithin a b) (ha : k.operands.limit n ≤ a)
    (hb : k.operands.others n ≤ b) : e.NestsWithin (a + n) b := by
  match h with
  | .done => exact hleft.mono (Nat.le_add_right _ _) (Nat.le_refl _)
  | .more (n := n) hop h hrest =>
    -- The link takes a level, so what is left for the rest of the chain bounds its operand as well.
    have ha' := Nat.le_trans (k.limit_operands_le n) ha
    have hb' := Nat.le_trans (k.others_operands_le n) hb
    exact (hrest.nestsWithin (nestsWithin_of_node? hop hleft (h.nestsWithin.mono ha' hb'))
      (Nat.le_succ_of_le ha') hb').mono (by omega) (Nat.le_refl _)

theorem LinksIn.nestsWithin {n : Nat} {ts : Tokens} {links : Links} (h : LinksIn n ts links) :
    ∀ e ∈ links.operands,
      e.NestsWithin ((Level.chain .sum).limit n) ((Level.chain .sum).others n) := by
  match h with
  | .nil => exact nofun
  | .cons _ h hl => exact List.forall_mem_cons.2 ⟨h.nestsWithin, hl.nestsWithin⟩

end

end Predicate

end Subdomain

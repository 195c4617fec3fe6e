import Subdomain.Proofs.Predicate.Settling

/-!
# Joined predicates

Predicates in parentheses can be negated and joined by signs, whatever they are
made of. If the text can be read at all, the expression is the one that the signs
make of those of the predicates (`expr_conj`, `expr_disj` and `expr_compl`).
-/

namespace Subdomain

namespace Predicate

open Lexical

/-! ## Chains -/

section

variable {k : Chain} {ts us : Tokens} {a b e : Expr}

theorem Derives.chain_of_operand (h : Derives k.operands ts e) : Derives (.chain k) ts e :=
  h.derivesIn.chain_of_operand.derives

theorem Derives.pair (ha : Derives k.operands ts a) {t : Token Word} {f : Expr → Expr → Expr}
    (ht : k.node? t = some f) (hb : Derives k.operands us b) :
    Derives (.chain k) (ts ++ t :: us) (f a b) := by
  have hchain := Derives.chain ha (.more ht hb .done)
  rwa [List.append_nil] at hchain

theorem Derives.negation_of_atom (h : Derives .atom ts e) : Derives .negation ts e :=
  (h.derivesIn.operand_of_atom .conjunction).derives

end

/-! ## Texts of expressions -/

/-- Anywhere the tokens of the text derive the expression. -/
def Means (l : Level) (u : List Char) (e : Expr) : Prop :=
  ∀ n, ∃ ts, Scans rules n u ts ∧ Derives l ts e

section

variable {u v : List Char} {a b e : Expr}

theorem means_of_parse {p : Predicate} (h : parse u = .ok p) :
    Means (.chain .disjunction) u p.expr := fun n => by
  obtain ⟨ts, hts, he, -⟩ := of_parse h
  exact ⟨_, (scan_eq_ok_iff.1 hts).move n, he.shift n⟩

theorem Means.expr_eq (h : Means (.chain .disjunction) u e) {p : Predicate}
    (hp : parse u = .ok p) : p.expr = e := by
  obtain ⟨ts, hts, he⟩ := h 0
  rw [he.eq_of_parse (scan_eq_ok_iff.2 hts) hp]

theorem Means.chain {k : Chain} (h : Means k.operands u e) : Means (.chain k) u e := fun n => by
  obtain ⟨ts, hts, he⟩ := h n
  exact ⟨ts, hts, he.chain_of_operand⟩

theorem Means.parens (h : Means (.chain .disjunction) u e) :
    Means .negation ('(' :: (u ++ [')'])) e := fun n => by
  obtain ⟨ts, hts, he⟩ := h (n + 1)
  have hopen : Alone rules '(' := alone_of_all (by decide +kernel)
  have hclose : Alone rules ')' := alone_of_all (by decide +kernel)
  refine ⟨_, .alone hopen (by decide) (takes_of_best_eq (by decide) rfl).first
    (hts.append hclose (.alone hclose (by decide) (takes_of_best_eq (by decide) rfl).first
      (.done _))), ?_⟩
  exact (Derives.parens rfl he rfl).negation_of_atom

theorem Means.compl (h : Means .negation u e) : Means .negation ('~' :: u) (.compl e) :=
  fun n => by
    obtain ⟨ts, hts, he⟩ := h (n + 1)
    exact ⟨_, .alone (alone_of_all (by decide +kernel)) (by decide)
      (takes_of_best_eq (by decide) rfl).first hts, .compl rfl he⟩

/-- A sign with blanks on both sides joins two operands. -/
theorem Means.pair {k : Chain} (hu : Means k.operands u a) (hv : Means k.operands v b) {c : Char}
    {w : Word} {f : Expr → Expr → Expr} (hc : Alone rules c) (hb : isBlank c = false)
    (hw : First [c] rules w) (hf : ∀ n, k.node? ⟨w, [c], n⟩ = some f) :
    Means (.chain k) (u ++ ' ' :: c :: ' ' :: v) (f a b) := fun n => by
  obtain ⟨ts, hts, ha⟩ := hu n
  let m := n + byteLength (u ++ [' '])
  obtain ⟨us, hus, hb'⟩ := hv (m + c.utf8Size + ' '.utf8Size)
  refine ⟨ts ++ ⟨w, [c], m⟩ :: us, ?_, ha.pair (hf m) hb'⟩
  exact hts.append_blank (alone_of_all (by decide +kernel)) (by decide)
    (.alone hc hb hw (.blank (by decide) hus))

end

/-! ## Predicates in parentheses -/

section

variable {P Q : List Char} {p q r : Predicate} (hP : parse P = .ok p) (hQ : parse Q = .ok q)
include hP

theorem expr_parens (h : parse ('(' :: (P ++ [')'])) = .ok r) : r.expr = p.expr :=
  (means_of_parse hP).parens.chain (k := .conjunction) |>.chain (k := .disjunction) |>.expr_eq h

theorem expr_compl (h : parse ('~' :: '(' :: (P ++ [')'])) = .ok r) : r.expr = .compl p.expr :=
  (means_of_parse hP).parens.compl.chain (k := .conjunction) |>.chain (k := .disjunction)
    |>.expr_eq h

include hQ

theorem expr_conj (h : parse ('(' :: (P ++ [')']) ++ ' ' :: '&' :: ' ' :: '(' :: (Q ++ [')'])) =
    .ok r) : r.expr = .conj p.expr q.expr := by
  have hjoin := Means.pair (k := .conjunction) (means_of_parse hP).parens
    (means_of_parse hQ).parens (c := '&') (alone_of_all (by decide +kernel)) (by decide)
    (takes_of_best_eq (by decide) rfl).first fun _ => rfl
  exact (hjoin.chain (k := .disjunction)).expr_eq h

theorem expr_disj (h : parse ('(' :: (P ++ [')']) ++ ' ' :: '|' :: ' ' :: '(' :: (Q ++ [')'])) =
    .ok r) : r.expr = .disj p.expr q.expr := by
  have hjoin := Means.pair (k := .disjunction)
    ((means_of_parse hP).parens.chain (k := .conjunction))
    ((means_of_parse hQ).parens.chain (k := .conjunction)) (c := '|')
    (alone_of_all (by decide +kernel)) (by decide)
    (takes_of_best_eq (by decide) rfl).first fun _ => rfl
  exact hjoin.expr_eq h

end

end Predicate

end Subdomain

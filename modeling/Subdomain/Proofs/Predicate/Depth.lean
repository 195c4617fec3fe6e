import Subdomain.Proofs.Predicate.Grammar

/-!
# Derivations of bounded depth

`DerivesIn n` is the grammar of a reader with `n` levels left. A token that leads
down takes one of them from what stands behind it: behind an operator from the rest
of the chain as well, but never from the operands in front of it. Forgetting the
levels leaves a derivation (`DerivesIn.derives`), and as many levels as tokens that
lead down (`descents`) suffice for every derivation (`Derives.derivesIn`).
-/

namespace Subdomain

namespace Predicate

mutual

inductive DerivesIn : Nat → Level → Tokens → Expr → Prop where
  | chain {n : Nat} {k : Chain} {ts us : Tokens} {left e : Expr} :
      DerivesIn n k.operands ts left → RestIn n k left us e → DerivesIn n (.chain k) (ts ++ us) e
  | compared {n : Nat} {ts : Tokens} {e : Expr} :
      DerivesIn n .comparison ts e → DerivesIn n .negation ts e
  | compl {n : Nat} {op : Token Word} {ts : Tokens} {e : Expr} : op.kind = .notWord →
      DerivesIn n .negation ts e → DerivesIn (n + 1) .negation (op :: ts) (.compl e)
  | single {n : Nat} {ts : Tokens} {e : Expr} :
      DerivesIn n (.chain .sum) ts e → DerivesIn n .comparison ts e
  | compare {n : Nat} {ts us : Tokens} {first e : Expr} {op : Comparison} {links : Links} :
      DerivesIn n (.chain .sum) ts first → LinksIn n us (.cons op e links) →
      DerivesIn n .comparison (ts ++ us) (.compare first (.cons op e links))
  | unsigned {n : Nat} {ts : Tokens} {e : Expr} :
      DerivesIn n .power ts e → DerivesIn n .unary ts e
  | plus {n : Nat} {op : Token Word} {ts : Tokens} {e : Expr} : op.kind = .plus →
      DerivesIn n .unary ts e → DerivesIn (n + 1) .unary (op :: ts) e
  | minus {n : Nat} {op : Token Word} {ts : Tokens} {e : Expr} : op.kind = .minus →
      DerivesIn n .unary ts e → DerivesIn (n + 1) .unary (op :: ts) (.neg e)
  | base {n : Nat} {ts : Tokens} {e : Expr} : DerivesIn n .atom ts e → DerivesIn n .power ts e
  | power {n : Nat} {op : Token Word} {ts us : Tokens} {base e : Expr} :
      DerivesIn (n + 1) .atom ts base → op.kind = .power → DerivesIn n .unary us e →
      DerivesIn (n + 1) .power (ts ++ op :: us) (.arith .pow base e)
  | literal {n : Nat} {t : Token Word} {e : Expr} : leaf? t = some e → DerivesIn n .atom [t] e
  | parens {n : Nat} {o c : Token Word} {ts : Tokens} {e : Expr} : o.kind = .openParen →
      DerivesIn n (.chain .disjunction) ts e → c.kind = .closeParen →
      DerivesIn (n + 1) .atom (o :: (ts ++ [c])) e
  | call {n : Nat} {t o c : Token Word} {f : MathFunction} {ts : Tokens} {e : Expr} :
      function? t = some f → o.kind = .openParen → DerivesIn n (.chain .disjunction) ts e →
      c.kind = .closeParen → DerivesIn (n + 1) .atom (t :: o :: (ts ++ [c])) (.call f e)

/-- The tokens go on with the chain whose expression is `left` up to here, for which the levels do
not count. -/
inductive RestIn : Nat → Chain → Expr → Tokens → Expr → Prop where
  | done {n : Nat} {k : Chain} {e : Expr} : RestIn n k e [] e
  | more {n : Nat} {k : Chain} {op : Token Word} {f : Expr → Expr → Expr} {ts us : Tokens}
      {left right e : Expr} : k.node? op = some f → DerivesIn n k.operands ts right →
      RestIn n k (f left right) us e → RestIn (n + 1) k left (op :: (ts ++ us)) e

inductive LinksIn : Nat → Tokens → Links → Prop where
  | nil {n : Nat} : LinksIn n [] .nil
  | cons {n : Nat} {t : Token Word} {op : Comparison} {ts us : Tokens} {e : Expr} {links : Links} :
      comparison? t = some op → DerivesIn n (.chain .sum) ts e → LinksIn n us links →
      LinksIn n (t :: (ts ++ us)) (.cons op e links)

end

/-! ## Levels that do not matter -/

mutual

theorem DerivesIn.derives {n : Nat} {l : Level} {ts : Tokens} {e : Expr}
    (h : DerivesIn n l ts e) : Derives l ts e := by
  match h with
  | .chain h hrest => exact .chain h.derives hrest.derivesRest
  | .compared h => exact .compared h.derives
  | .compl hop h => exact .compl hop h.derives
  | .single h => exact .single h.derives
  | .compare h hl => exact .compare h.derives hl.derivesLinks
  | .unsigned h => exact .unsigned h.derives
  | .plus hop h => exact .plus hop h.derives
  | .minus hop h => exact .minus hop h.derives
  | .base h => exact .base h.derives
  | .power h hop he => exact .power h.derives hop he.derives
  | .literal ht => exact .literal ht
  | .parens ho h hc => exact .parens ho h.derives hc
  | .call ht ho h hc => exact .call ht ho h.derives hc

theorem RestIn.derivesRest {n : Nat} {k : Chain} {ts : Tokens} {left e : Expr}
    (h : RestIn n k left ts e) : DerivesRest k left ts e := by
  match h with
  | .done => exact .done
  | .more hop h hrest => exact .more hop h.derives hrest.derivesRest

theorem LinksIn.derivesLinks {n : Nat} {ts : Tokens} {links : Links}
    (h : LinksIn n ts links) : DerivesLinks ts links := by
  match h with
  | .nil => exact .nil
  | .cons hop h hl => exact .cons hop h.derives hl.derivesLinks

end

mutual

/-- More levels do no harm. -/
theorem DerivesIn.mono {n m : Nat} {l : Level} {ts : Tokens} {e : Expr} (h : DerivesIn n l ts e)
    (hm : n ≤ m) : DerivesIn m l ts e := by
  match h with
  | .chain h hrest => exact .chain (h.mono hm) (hrest.mono hm)
  | .compared h => exact .compared (h.mono hm)
  | .compl hop h =>
    obtain ⟨i, rfl⟩ := Nat.exists_eq_add_of_le' hm
    exact .compl hop (h.mono (Nat.le_add_left _ i))
  | .single h => exact .single (h.mono hm)
  | .compare h hl => exact .compare (h.mono hm) (hl.mono hm)
  | .unsigned h => exact .unsigned (h.mono hm)
  | .plus hop h =>
    obtain ⟨i, rfl⟩ := Nat.exists_eq_add_of_le' hm
    exact .plus hop (h.mono (Nat.le_add_left _ i))
  | .minus hop h =>
    obtain ⟨i, rfl⟩ := Nat.exists_eq_add_of_le' hm
    exact .minus hop (h.mono (Nat.le_add_left _ i))
  | .base h => exact .base (h.mono hm)
  | .power h hop he =>
    obtain ⟨i, rfl⟩ := Nat.exists_eq_add_of_le' hm
    exact .power (h.mono hm) hop (he.mono (Nat.le_add_left _ i))
  | .literal ht => exact .literal ht
  | .parens ho h hc =>
    obtain ⟨i, rfl⟩ := Nat.exists_eq_add_of_le' hm
    exact .parens ho (h.mono (Nat.le_add_left _ i)) hc
  | .call ht ho h hc =>
    obtain ⟨i, rfl⟩ := Nat.exists_eq_add_of_le' hm
    exact .call ht ho (h.mono (Nat.le_add_left _ i)) hc

theorem RestIn.mono {n m : Nat} {k : Chain} {ts : Tokens} {left e : Expr}
    (h : RestIn n k left ts e) (hm : n ≤ m) : RestIn m k left ts e := by
  match h with
  | .done => exact .done
  | .more hop h hrest =>
    obtain ⟨i, rfl⟩ := Nat.exists_eq_add_of_le' hm
    exact .more hop (h.mono (Nat.le_add_left _ i)) (hrest.mono (Nat.le_add_left _ i))

theorem LinksIn.mono {n m : Nat} {ts : Tokens} {links : Links} (h : LinksIn n ts links)
    (hm : n ≤ m) : LinksIn m ts links := by
  match h with
  | .nil => exact .nil
  | .cons hop h hl => exact .cons hop (h.mono hm) (hl.mono hm)

end

section

variable {n : Nat} {k : Chain} {ts : Tokens} {e : Expr}

theorem DerivesIn.chain_of_operand (h : DerivesIn n k.operands ts e) :
    DerivesIn n (.chain k) ts e := by
  have hchain := DerivesIn.chain h .done
  rwa [List.append_nil] at hchain

/-- An atom stands at every level of the grammar. -/
theorem DerivesIn.operand_of_atom (h : DerivesIn n .atom ts e) (k : Chain) :
    DerivesIn n k.operands ts e := by
  have hproduct := DerivesIn.chain_of_operand (k := .product) (.unsigned (.base h))
  have hnegation := DerivesIn.compared (.single (.chain_of_operand (k := .sum) hproduct))
  cases k with
  | disjunction => exact .chain_of_operand (k := .conjunction) hnegation
  | conjunction => exact hnegation
  | sum => exact hproduct
  | product => exact .unsigned (.base h)

end

/-! ## Going down -/

/-- Whether what stands behind a token of the kind is a level deeper: behind an operator, a
comparison apart, behind a sign or a negation and inside parentheses. -/
def Word.deepens : Word → Bool
  | orWord | andWord | notWord | plus | minus | star | slash | power | openParen => true
  | _ => false

/-- How many of the tokens lead a level down. -/
def descents (ts : Tokens) : Nat := ts.countP (·.kind.deepens)

theorem descents_append {ts us : Tokens} : descents (ts ++ us) = descents ts + descents us :=
  List.countP_append

theorem descents_le_cons {t : Token Word} {ts : Tokens} : descents ts ≤ descents (t :: ts) :=
  (List.sublist_cons_self t ts).countP_le

theorem descents_cons {t : Token Word} {ts : Tokens} (h : t.kind.deepens = true) :
    descents (t :: ts) = descents ts + 1 :=
  List.countP_cons_of_pos h

theorem deepens_of_kind {t : Token Word} {k : Word} (h : t.kind = k) (hk : k.deepens = true) :
    t.kind.deepens = true := by
  rw [h, hk]

theorem deepens_of_node? {k : Chain} {t : Token Word} {f : Expr → Expr → Expr}
    (h : k.node? t = some f) : t.kind.deepens = true := by
  unfold Chain.node? at h
  split at h <;> cases h
  all_goals
    rename_i hk
    rw [hk]
    rfl

mutual

/-- A derivation goes down no further than its tokens lead. -/
theorem Derives.derivesIn {l : Level} {ts : Tokens} {e : Expr} (h : Derives l ts e) :
    DerivesIn (descents ts) l ts e := by
  match h with
  | .chain h hrest =>
    rw [descents_append]
    exact .chain (h.derivesIn.mono (Nat.le_add_right _ _))
      (hrest.restIn.mono (Nat.le_add_left _ _))
  | .compared h => exact .compared h.derivesIn
  | .compl hop h =>
    rw [descents_cons (deepens_of_kind hop rfl)]
    exact .compl hop h.derivesIn
  | .single h => exact .single h.derivesIn
  | .compare h hl =>
    rw [descents_append]
    exact .compare (h.derivesIn.mono (Nat.le_add_right _ _))
      (hl.linksIn.mono (Nat.le_add_left _ _))
  | .unsigned h => exact .unsigned h.derivesIn
  | .plus hop h =>
    rw [descents_cons (deepens_of_kind hop rfl)]
    exact .plus hop h.derivesIn
  | .minus hop h =>
    rw [descents_cons (deepens_of_kind hop rfl)]
    exact .minus hop h.derivesIn
  | .base h => exact .base h.derivesIn
  | .power h hop he =>
    rw [descents_append, descents_cons (deepens_of_kind hop rfl), ← Nat.add_assoc]
    exact .power (h.derivesIn.mono (by omega)) hop (he.derivesIn.mono (Nat.le_add_left _ _))
  | .literal ht => exact .literal ht
  | .parens ho h hc =>
    rw [descents_cons (deepens_of_kind ho rfl), descents_append]
    exact .parens ho (h.derivesIn.mono (Nat.le_add_right _ _)) hc
  | .call (t := t) ht ho h hc =>
    refine .mono (.call ht ho h.derivesIn hc) (Nat.le_trans ?_ descents_le_cons)
    rw [descents_cons (deepens_of_kind ho rfl), descents_append]
    omega

theorem DerivesRest.restIn {k : Chain} {ts : Tokens} {left e : Expr}
    (h : DerivesRest k left ts e) : RestIn (descents ts) k left ts e := by
  match h with
  | .done => exact .done
  | .more hop h hrest =>
    rw [descents_cons (deepens_of_node? hop), descents_append]
    exact .more hop (h.derivesIn.mono (Nat.le_add_right _ _))
      (hrest.restIn.mono (Nat.le_add_left _ _))

theorem DerivesLinks.linksIn {ts : Tokens} {links : Links} (h : DerivesLinks ts links) :
    LinksIn (descents ts) ts links := by
  match h with
  | .nil => exact .nil
  | .cons hop h hl =>
    refine .mono (.cons hop (h.derivesIn.mono (Nat.le_add_right _ _))
      (hl.linksIn.mono (Nat.le_add_left _ _))) (Nat.le_trans ?_ descents_le_cons)
    exact Nat.le_of_eq descents_append.symm

end

end Predicate

end Subdomain

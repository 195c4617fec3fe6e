import Subdomain.Predicate.Parser
import Subdomain.Proofs.Lexical.Cuts

/-!
# The grammar of predicates

`Derives l ts e` says that the tokens `ts` derive the expression `e` at the level
`l` of the grammar that `Predicate/Parser.lean` states, with one rule for each
production. A chain starts with an operand, and what stands behind an operand
turns the expression on its left into the one of the whole chain
(`DerivesRest`), so that chains lean to the left. The depth does not matter here.
-/

namespace Subdomain

namespace Predicate

abbrev Tokens : Type := List (Token Word)

/-- The tokens that are expressions by themselves. -/
def leaf? (t : Token Word) : Option Expr :=
  if t.kind = .identifier then constant? t.chars else literal? t

/-- The names of functions. -/
def function? (t : Token Word) : Option MathFunction :=
  if t.kind = .identifier then MathFunction.ofName? t.text else none

/-- The levels of the grammar, those of chains by the operators of the chain. -/
inductive Level where
  | chain (k : Chain)
  | negation
  | comparison
  | unary
  | power
  | atom

/-- The level at which the operands of a chain stand. -/
def Chain.operands : Chain → Level
  | disjunction => .chain .conjunction
  | conjunction => .negation
  | sum => .chain .product
  | product => .unary

mutual

inductive Derives : Level → Tokens → Expr → Prop where
  | chain {k : Chain} {ts us : Tokens} {left e : Expr} :
      Derives k.operands ts left → DerivesRest k left us e → Derives (.chain k) (ts ++ us) e
  | compared {ts : Tokens} {e : Expr} : Derives .comparison ts e → Derives .negation ts e
  | compl {op : Token Word} {ts : Tokens} {e : Expr} :
      op.kind = .notWord → Derives .negation ts e → Derives .negation (op :: ts) (.compl e)
  | single {ts : Tokens} {e : Expr} : Derives (.chain .sum) ts e → Derives .comparison ts e
  | compare {ts us : Tokens} {first e : Expr} {op : Comparison} {links : Links} :
      Derives (.chain .sum) ts first → DerivesLinks us (.cons op e links) →
      Derives .comparison (ts ++ us) (.compare first (.cons op e links))
  | unsigned {ts : Tokens} {e : Expr} : Derives .power ts e → Derives .unary ts e
  | plus {op : Token Word} {ts : Tokens} {e : Expr} :
      op.kind = .plus → Derives .unary ts e → Derives .unary (op :: ts) e
  | minus {op : Token Word} {ts : Tokens} {e : Expr} :
      op.kind = .minus → Derives .unary ts e → Derives .unary (op :: ts) (.neg e)
  | base {ts : Tokens} {e : Expr} : Derives .atom ts e → Derives .power ts e
  | power {op : Token Word} {ts us : Tokens} {base e : Expr} :
      Derives .atom ts base → op.kind = .power → Derives .unary us e →
      Derives .power (ts ++ op :: us) (.arith .pow base e)
  | literal {t : Token Word} {e : Expr} : leaf? t = some e → Derives .atom [t] e
  | parens {o c : Token Word} {ts : Tokens} {e : Expr} :
      o.kind = .openParen → Derives (.chain .disjunction) ts e → c.kind = .closeParen →
      Derives .atom (o :: (ts ++ [c])) e
  | call {t o c : Token Word} {f : MathFunction} {ts : Tokens} {e : Expr} :
      function? t = some f → o.kind = .openParen → Derives (.chain .disjunction) ts e →
      c.kind = .closeParen → Derives .atom (t :: o :: (ts ++ [c])) (.call f e)

/-- The tokens go on with the chain whose expression is `left` up to here. -/
inductive DerivesRest : Chain → Expr → Tokens → Expr → Prop where
  | done {k : Chain} {e : Expr} : DerivesRest k e [] e
  | more {k : Chain} {op : Token Word} {f : Expr → Expr → Expr} {ts us : Tokens}
      {left right e : Expr} : k.node? op = some f → Derives k.operands ts right →
      DerivesRest k (f left right) us e → DerivesRest k left (op :: (ts ++ us)) e

/-- The tokens are those of comparisons, each with the operand on its right. -/
inductive DerivesLinks : Tokens → Links → Prop where
  | nil : DerivesLinks [] .nil
  | cons {t : Token Word} {op : Comparison} {ts us : Tokens} {e : Expr} {links : Links} :
      comparison? t = some op → Derives (.chain .sum) ts e → DerivesLinks us links →
      DerivesLinks (t :: (ts ++ us)) (.cons op e links)

end

/-! ## Tokens at other places -/

mutual

/-- What tokens derive does not depend on where they stand. -/
theorem Derives.shift (n : Nat) {l : Level} {ts : Tokens} {e : Expr} (h : Derives l ts e) :
    Derives l (ts.map (Token.shift n)) e := by
  match h with
  | .chain h hr =>
    rw [List.map_append]
    exact .chain (h.shift n) (hr.shift n)
  | .compared h => exact .compared (h.shift n)
  | .compl hop h => exact .compl hop (h.shift n)
  | .single h => exact .single (h.shift n)
  | .compare h hl =>
    rw [List.map_append]
    exact .compare (h.shift n) (hl.shift n)
  | .unsigned h => exact .unsigned (h.shift n)
  | .plus hop h => exact .plus hop (h.shift n)
  | .minus hop h => exact .minus hop (h.shift n)
  | .base h => exact .base (h.shift n)
  | .power h hop he =>
    rw [List.map_append, List.map_cons]
    exact .power (h.shift n) hop (he.shift n)
  | .literal ht => exact .literal ht
  | .parens ho h hc =>
    rw [List.map_cons, List.map_append]
    exact .parens ho (h.shift n) hc
  | .call ht ho h hc =>
    rw [List.map_cons, List.map_cons, List.map_append]
    exact .call ht ho (h.shift n) hc

theorem DerivesRest.shift (n : Nat) {k : Chain} {ts : Tokens} {left e : Expr}
    (h : DerivesRest k left ts e) : DerivesRest k left (ts.map (Token.shift n)) e := by
  match h with
  | .done => exact .done
  | .more hop h hr =>
    rw [List.map_cons, List.map_append]
    exact .more hop (h.shift n) (hr.shift n)

theorem DerivesLinks.shift (n : Nat) {ts : Tokens} {links : Links} (h : DerivesLinks ts links) :
    DerivesLinks (ts.map (Token.shift n)) links := by
  match h with
  | .nil => exact .nil
  | .cons hop h hl =>
    rw [List.map_cons, List.map_append]
    exact .cons hop (h.shift n) (hl.shift n)

end

/-! ## First tokens -/

theorem leaf?_of_literal? {t : Token Word} {e : Expr} (h : literal? t = some e) :
    leaf? t = some e := by
  rw [leaf?, if_neg, h]
  intro hk
  rw [literal?, hk] at h
  cases h

theorem leaf?_of_identifier {t : Token Word} (h : t.kind = .identifier) :
    leaf? t = constant? t.chars := if_pos h

theorem function?_of_identifier {t : Token Word} (h : t.kind = .identifier) :
    function? t = MathFunction.ofName? t.text := if_pos h

theorem kind_of_literal? {t : Token Word} {e : Expr} (h : literal? t = some e) :
    t.kind = .number ∨ t.kind = .trueWord ∨ t.kind = .falseWord := by
  unfold literal? at h
  split at h
  · exact .inl ‹_›
  · exact .inr (.inl ‹_›)
  · exact .inr (.inr ‹_›)
  · cases h

theorem kind_of_leaf? {t : Token Word} {e : Expr} (h : leaf? t = some e) :
    t.kind = .number ∨ t.kind = .trueWord ∨ t.kind = .falseWord ∨ t.kind = .identifier := by
  unfold leaf? at h
  split at h
  · exact .inr (.inr (.inr ‹_›))
  · exact (kind_of_literal? h).imp_right fun hk => hk.imp_right .inl

theorem kind_of_function? {t : Token Word} {f : MathFunction} (h : function? t = some f) :
    t.kind = .identifier := by
  unfold function? at h
  split at h
  · assumption
  · cases h

/-- What the first token of an expression cannot be: a sign in front of a power, a negation in front
of a comparison. -/
def Level.Bars : Level → Word → Prop
  | power, k | atom, k => k = .minus ∨ k = .plus ∨ k = .notWord
  | chain .disjunction, _ | chain .conjunction, _ | negation, _ => False
  | _, k => k = .notWord

theorem Derives.head {l : Level} {ts : Tokens} {e : Expr} (h : Derives l ts e) :
    ∃ t us, ts = t :: us ∧ ¬ l.Bars t.kind := by
  match h with
  | .chain (k := k) h _ =>
    obtain ⟨t, us, rfl, ht⟩ := h.head
    refine ⟨t, _, rfl, ?_⟩
    cases k <;> first | exact id | exact ht
  | .compared h =>
    obtain ⟨t, us, rfl, -⟩ := h.head
    exact ⟨t, us, rfl, id⟩
  | .compl _ _ => exact ⟨_, _, rfl, id⟩
  | .single h => exact h.head
  | .compare h _ =>
    obtain ⟨t, us, rfl, ht⟩ := h.head
    exact ⟨t, _, rfl, ht⟩
  | .unsigned h =>
    obtain ⟨t, us, rfl, ht⟩ := h.head
    exact ⟨t, us, rfl, fun hk => ht (.inr (.inr hk))⟩
  | .plus hop _ | .minus hop _ =>
    refine ⟨_, _, rfl, fun hk : _ = Word.notWord => ?_⟩
    simp [hop] at hk
  | .base h => exact h.head
  | .power h _ _ =>
    obtain ⟨t, us, rfl, ht⟩ := h.head
    exact ⟨t, _, rfl, ht⟩
  | .literal ht =>
    refine ⟨_, _, rfl, fun hk => ?_⟩
    rcases kind_of_leaf? ht with e | e | e | e <;> simp [e, Level.Bars] at hk
  | .parens ho _ _ =>
    refine ⟨_, _, rfl, fun hk => ?_⟩
    simp [ho, Level.Bars] at hk
  | .call ht _ _ _ =>
    refine ⟨_, _, rfl, fun hk => ?_⟩
    simp [kind_of_function? ht, Level.Bars] at hk

end Predicate

end Subdomain

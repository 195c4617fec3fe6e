import Subdomain.Lexical.Cursor
import Subdomain.Predicate.Expr
import Subdomain.Predicate.Token
import Subdomain.Text.Decimal

/-!
# Reading predicates

The grammar, from the loosest to the tightest operator:

```text
or    := and (OR and)*
and   := not (AND not)*
not   := NOT not | cmp
cmp   := add (CMP add)*
add   := mul (('+' | '-') mul)*
mul   := unary (('*' | '/') unary)*
unary := ('-' | '+') unary | power
power := atom ('**' unary)?
atom  := number | boolean | name | '(' or ')'
name  := x | y | z | pi | function '(' or ')'
```

Chains lean to the left, `**` leans to the right and binds tighter than a sign on
its left, a plus sign leaves no trace, and all comparisons of a chain form one
node. Parentheses, signs, negations and the operators of chains, comparisons
apart, each stand one level deeper than what surrounds them; the depth goes back
when they are done and never passes `maxDepth`.
-/

namespace Subdomain

/-- A predicate: the text it was read from, without blanks at its ends, and its meaning. -/
structure Predicate where
  text : List Char
  expr : Predicate.Expr

namespace Predicate

abbrev Reading (c : Cursor Word) : Type := Except Fault (Parsed Word Expr c)

/-- Goes one level deeper behind what was just read. -/
def descend {α : Type} {c : Cursor Word} (length : Nat) (p : Parsed Word α c) :
    Except Fault (Parsed Word α c) :=
  let q := p.atDepth (p.next.depth + 1)
  if maxDepth < q.next.depth then .error (q.next.fault length .nestedTooDeeply) else .ok q

/-- Goes back by `n` levels. -/
def ascend {α : Type} {c : Cursor Word} (n : Nat) (p : Parsed Word α c) : Parsed Word α c :=
  p.atDepth (p.next.depth - n)

/-- The operators that form chains, from the loosest to the tightest. -/
inductive Chain where
  | disjunction
  | conjunction
  | sum
  | product
  deriving DecidableEq, Repr

/-- What an operator of a chain makes of the operands on its two sides. -/
def Chain.node? (k : Chain) (t : Token Word) : Option (Expr → Expr → Expr) :=
  match k, t.kind with
  | disjunction, .orWord => some .disj
  | conjunction, .andWord => some .conj
  | sum, .plus => some (.arith .add)
  | sum, .minus => some (.arith .sub)
  | product, .star => some (.arith .mul)
  | product, .slash => some (.arith .div)
  | _, _ => none

/-- How far above an atom the operands of a chain stand in the grammar. -/
def Chain.rank : Chain → Nat
  | disjunction => 13
  | conjunction => 11
  | sum => 7
  | product => 5

@[simp] theorem Chain.rank_disjunction : disjunction.rank = 13 := rfl

@[simp] theorem Chain.rank_conjunction : conjunction.rank = 11 := rfl

@[simp] theorem Chain.rank_sum : sum.rank = 7 := rfl

@[simp] theorem Chain.rank_product : product.rank = 5 := rfl

theorem Chain.rank_le (k : Chain) : k.rank ≤ 13 := by cases k <;> decide

def comparison? (t : Token Word) : Option Comparison :=
  match t.kind with
  | .lt => some .lt
  | .le => some .le
  | .gt => some .gt
  | .ge => some .ge
  | .eq => some .eq
  | .ne => some .ne
  | _ => none

/-- What a sign in front of an operand does to it. -/
def sign? (t : Token Word) : Option (Expr → Expr) :=
  match t.kind with
  | .minus => some .neg
  | .plus => some id
  | _ => none

/-- The circle constant. -/
def circle : Float := 3.141592653589793

/-- The names that are expressions by themselves. -/
def constant? (name : List Char) : Option Expr :=
  if name = ['x'] then some (.coordinate .x)
  else if name = ['y'] then some (.coordinate .y)
  else if name = ['z'] then some (.coordinate .z)
  else if name = ['p', 'i'] then some (.number circle)
  else none

/-- The tokens, apart from names, that are expressions by themselves. -/
def literal? (t : Token Word) : Option Expr :=
  match t.kind with
  | .number => some (.number (Decimal.Numeral.ofChars t.chars).toFloat)
  | .trueWord => some (.boolean true)
  | .falseWord => some (.boolean false)
  | _ => none

mutual

/-- Reads a chain of operands. -/
def chain (length : Nat) (k : Chain) (c : Cursor Word) : Reading c := do
  let left ← operand length k c
  have := left.shorter
  chainTail length k left 0
termination_by 16 * c.rest.length + k.rank + 1

/-- Reads on behind the operand `left`, after `chained` operators of the same chain. -/
def chainTail {c : Cursor Word} (length : Nat) (k : Chain) (left : Parsed Word Expr c)
    (chained : Nat) : Reading c :=
  match left.next.take? k.node? with
  | none => .ok (ascend chained left)
  | some op => do
    let op ← descend length op
    have := op.shorter
    have := k.rank_le
    let right ← operand length k op.next
    have := right.shorter
    chainTail length k ((left.skipTo (op.skipTo right)).map (op.value left.value)) (chained + 1)
termination_by 16 * left.next.rest.length + 13

/-- Reads one operand of a chain. -/
def operand (length : Nat) (k : Chain) (c : Cursor Word) : Reading c :=
  match k with
  | .disjunction => chain length .conjunction c
  | .conjunction => negation length c
  | .sum => chain length .product c
  | .product => unary length c
termination_by 16 * c.rest.length + k.rank

def negation (length : Nat) (c : Cursor Word) : Reading c :=
  match c.eat? .notWord with
  | none => comparison length c
  | some op => do
    let op ← descend length op
    have := op.shorter
    let e ← negation length op.next
    return ascend 1 ((op.skipTo e).map .compl)
termination_by 16 * c.rest.length + 10

def comparison (length : Nat) (c : Cursor Word) : Reading c := do
  let first ← chain length .sum c
  have := first.shorter
  let links ← links length first
  match links.value with
  | .nil => return first
  | .cons op e rest => return links.map fun _ => .compare first.value (.cons op e rest)
termination_by 16 * c.rest.length + 9

/-- Reads the comparisons behind an operand. -/
def links {α : Type} {c : Cursor Word} (length : Nat) (left : Parsed Word α c) :
    Except Fault (Parsed Word Links c) :=
  match left.next.take? comparison? with
  | none => .ok (left.map fun _ => .nil)
  | some op => do
    have := op.shorter
    let e ← chain length .sum op.next
    have := e.shorter
    let rest ← links length (left.skipTo (op.skipTo e))
    return rest.map (.cons op.value e.value)
termination_by 16 * left.next.rest.length + 8

def unary (length : Nat) (c : Cursor Word) : Reading c :=
  match c.take? sign? with
  | none => power length c
  | some sign => do
    let sign ← descend length sign
    have := sign.shorter
    let e ← unary length sign.next
    return ascend 1 ((sign.skipTo e).map sign.value)
termination_by 16 * c.rest.length + 4

def power (length : Nat) (c : Cursor Word) : Reading c := do
  let base ← atom length c
  have := base.shorter
  match base.next.eat? .power with
  | none => return base
  | some op =>
    let op ← descend length op
    have := op.shorter
    let e ← unary length op.next
    return ascend 1 ((base.skipTo (op.skipTo e)).map (.arith .pow base.value))
termination_by 16 * c.rest.length + 3

def atom (length : Nat) (c : Cursor Word) : Reading c :=
  match c.take? literal? with
  | some e => .ok e
  | none =>
    match c.eat? .openParen with
    | some paren => group length paren
    | none =>
      if c.kind? = some .identifier then name length c
      else .error (c.fault length .expectedExpression)
termination_by 16 * c.rest.length + 2

/-- Reads what the name that is next stands for. -/
def name (length : Nat) (c : Cursor Word) : Reading c :=
  match c.take? fun t => constant? t.chars with
  | some e => .ok e
  | none =>
    match c.take? fun t => MathFunction.ofName? t.text with
    | none => .error (c.fault length .unknownName)
    | some f => do
      match f.next.eat? .openParen with
      | none => .error (f.next.fault length .expectedArgument)
      | some paren =>
        have := f.shorter
        have := paren.shorter
        let e ← group length (f.skipTo paren)
        return e.map (.call f.value)
termination_by 16 * c.rest.length + 1

/-- Reads an expression and the parenthesis that closes it, behind the one that opens it. -/
def group {c : Cursor Word} (length : Nat) (paren : Parsed Word (Token Word) c) : Reading c := do
  let inner ← descend length paren
  have := inner.shorter
  let e ← chain length .disjunction inner.next
  let close ← e.next.expect length .closeParen .expectedClose
  return ascend 1 ((inner.skipTo (e.skipTo close)).map fun _ => e.value)
termination_by 16 * c.rest.length

end

/-- Leaves out the blanks at both ends. -/
def trim (cs : List Char) : List Char :=
  ((cs.dropWhile Lexical.isBlank).reverse.dropWhile Lexical.isBlank).reverse

/-- Reads a whole text as a predicate. -/
def parse (text : List Char) : Except Fault Predicate := do
  let ts ← tokens text
  let e ← chain (byteLength text) .disjunction ⟨ts, 0⟩
  if e.next.rest.isEmpty then return ⟨trim text, e.value⟩
  else throw (e.next.fault (byteLength text) .unexpectedToken)

/-- Reads a whole text as a predicate; the error also holds the text. -/
def ofText (text : List Char) : Except SyntaxError Predicate :=
  match parse text with
  | .ok p => .ok p
  | .error f => .error { f with text }

end Predicate

end Subdomain

import Subdomain.Kind

/-!
# Set operators

A set operator is a sign followed by the code of the kind it acts on, as in
`-v` or `+c`. A sign alone acts on vertices.
-/

namespace Subdomain

inductive SetOp where
  | subtract
  | add
  | intersect
  deriving DecidableEq, Repr

namespace SetOp

def all : List SetOp := [subtract, add, intersect]

def sign : SetOp → Char
  | subtract => '-'
  | add => '+'
  | intersect => '*'

def ofSign? (c : Char) : Option SetOp := all.find? (·.sign = c)

theorem ofSign?_sign (op : SetOp) : ofSign? op.sign = some op := by cases op <;> rfl

theorem ofSign?_eq_some_iff {c : Char} {op : SetOp} : ofSign? c = some op ↔ c = op.sign := by
  constructor
  · intro h
    have := List.find?_some h
    simpa [eq_comm] using this
  · rintro rfl
    exact ofSign?_sign op

end SetOp

structure SetOperator where
  op : SetOp
  target : Kind
  deriving DecidableEq, Repr

namespace SetOperator

def chars (o : SetOperator) : List Char := [o.op.sign, o.target.code]

def text (o : SetOperator) : String := .ofList o.chars

def ofChars? : List Char → Option SetOperator
  | [s] => (SetOp.ofSign? s).map (⟨·, .vertex⟩)
  | [s, k] => do return ⟨← SetOp.ofSign? s, ← Kind.ofCode? k⟩
  | _ => none

def ofText? (s : String) : Option SetOperator := ofChars? s.toList

theorem ofChars?_chars (o : SetOperator) : ofChars? o.chars = some o := by
  obtain ⟨op, k⟩ := o
  simp [chars, ofChars?, SetOp.ofSign?_sign, Kind.ofCode?_code]

end SetOperator

end Subdomain

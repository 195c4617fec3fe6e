import Subdomain.Lexical.Token

/-!
# Cursors

A reader of tokens works on a cursor: the tokens that are still to be read and
the depth at which it stands. What a reader gives back, `Parsed`, has read at
least one token, which is why readers that call each other come to an end.
-/

namespace Subdomain

/-- The greatest depth that an expression may have. -/
def maxDepth : Nat := 64

structure Cursor (κ : Type) where
  rest : List (Token κ)
  depth : Nat
  deriving DecidableEq, Repr

/-- A value read at the cursor `c`, and the cursor behind it. -/
structure Parsed (κ α : Type) (c : Cursor κ) where
  value : α
  next : Cursor κ
  shorter : next.rest.length < c.rest.length

namespace Parsed

variable {κ α β : Type} {c : Cursor κ}

def map (f : α → β) (p : Parsed κ α c) : Parsed κ β c := ⟨f p.value, p.next, p.shorter⟩

/-- The value `q` that was read behind `p`. -/
def skipTo (p : Parsed κ α c) (q : Parsed κ β p.next) : Parsed κ β c :=
  ⟨q.value, q.next, Nat.lt_trans q.shorter p.shorter⟩

/-- The same value at another depth. -/
def atDepth (depth : Nat) (p : Parsed κ α c) : Parsed κ α c :=
  ⟨p.value, { p.next with depth }, p.shorter⟩

@[simp] theorem next_map {f : α → β} {p : Parsed κ α c} : (p.map f).next = p.next := rfl

@[simp] theorem next_skipTo {p : Parsed κ α c} {q : Parsed κ β p.next} :
    (p.skipTo q).next = q.next := rfl

@[simp] theorem rest_atDepth {n : Nat} {p : Parsed κ α c} :
    (p.atDepth n).next.rest = p.next.rest := rfl

end Parsed

namespace Cursor

variable {κ α : Type}

def kind? (c : Cursor κ) : Option κ := c.rest.head?.map (·.kind)

/-- A fault at the next token, or behind a text of the given length if there is none. -/
def fault (length : Nat) (c : Cursor κ) (cause : SyntaxCause) : Fault :=
  match c.rest with
  | [] => .atEnd cause length
  | t :: _ => ⟨cause, t.chars, t.offset⟩

/-- Reads the next token if `f` makes something of it. -/
def take? (f : Token κ → Option α) (c : Cursor κ) : Option (Parsed κ α c) :=
  match h : c.rest with
  | [] => none
  | t :: ts => (f t).map fun a => ⟨a, { c with rest := ts }, by simp [h]⟩

/-- Reads the next token if it is of kind `k`. -/
def eat? [DecidableEq κ] (k : κ) (c : Cursor κ) : Option (Parsed κ (Token κ) c) :=
  c.take? fun t => if t.kind = k then some t else none

/-- Reads a token of kind `k`. -/
def expect [DecidableEq κ] (length : Nat) (k : κ) (cause : SyntaxCause) (c : Cursor κ) :
    Except Fault (Parsed κ (Token κ) c) :=
  match c.eat? k with
  | some p => .ok p
  | none => .error (c.fault length cause)

end Cursor

end Subdomain

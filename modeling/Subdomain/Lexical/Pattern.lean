/-!
# Patterns

A pattern stands for a set of texts. `longest` finds the longest match at the
front of a text by taking the derivative of the pattern by one character after
the other: `derivative p c` stands for what may follow `c` in the texts of `p`.
-/

namespace Subdomain

inductive Pattern where
  /-- No text. -/
  | fail
  /-- The empty text. -/
  | empty
  /-- One character of a class. -/
  | one (accepts : Char → Bool)
  | seq (p q : Pattern)
  | alt (p q : Pattern)
  /-- Any number of matches, one after the other. -/
  | star (p : Pattern)

namespace Pattern

/-- The texts that a pattern stands for. -/
inductive Matches : Pattern → List Char → Prop where
  | empty : Matches empty []
  | one {f : Char → Bool} {c : Char} : f c = true → Matches (one f) [c]
  | seq {p q : Pattern} {s t : List Char} : Matches p s → Matches q t → Matches (seq p q) (s ++ t)
  | inl {p q : Pattern} {s : List Char} : Matches p s → Matches (alt p q) s
  | inr {p q : Pattern} {s : List Char} : Matches q s → Matches (alt p q) s
  | stop {p : Pattern} : Matches (star p) []
  | more {p : Pattern} {s t : List Char} : Matches p s → Matches (star p) t →
      Matches (star p) (s ++ t)

def char (c : Char) : Pattern := one (· == c)

/-- Exactly the given text. -/
def exactly : List Char → Pattern
  | [] => empty
  | c :: cs => seq (char c) (exactly cs)

def word (s : String) : Pattern := exactly s.toList

def opt (p : Pattern) : Pattern := alt empty p

def plus (p : Pattern) : Pattern := seq p (star p)

/-- Any of several patterns. -/
def any : List Pattern → Pattern
  | [] => fail
  | p :: ps => alt p (any ps)

/-- Whether the empty text matches. -/
def nullable : Pattern → Bool
  | fail => false
  | empty => true
  | one _ => false
  | seq p q => p.nullable && q.nullable
  | alt p q => p.nullable || q.nullable
  | star _ => true

/-- `seq` without the parts that add nothing. -/
def joined : Pattern → Pattern → Pattern
  | fail, _ => fail
  | empty, q => q
  | _, fail => fail
  | p, q => seq p q

/-- `alt` without the parts that add nothing. -/
def either : Pattern → Pattern → Pattern
  | fail, q => q
  | p, fail => p
  | p, q => alt p q

def derivative (c : Char) : Pattern → Pattern
  | fail => fail
  | empty => fail
  | one f => if f c then empty else fail
  | seq p q =>
    if p.nullable then either (joined (p.derivative c) q) (q.derivative c)
    else joined (p.derivative c) q
  | alt p q => either (p.derivative c) (q.derivative c)
  | star p => joined (p.derivative c) (star p)

/-- Whether the pattern is plainly `fail`. -/
def isFail : Pattern → Bool
  | fail => true
  | _ => false

/-- The length of the longest match at the front of a text, if there is any match. -/
def longest (p : Pattern) : List Char → Option Nat
  | [] => if p.nullable then some 0 else none
  | c :: cs =>
    if p.isFail then none
    else match longest (p.derivative c) cs with
      | some n => some (n + 1)
      | none => if p.nullable then some 0 else none

end Pattern

end Subdomain

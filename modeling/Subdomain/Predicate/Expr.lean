import Subdomain.Geometry.Point

/-!
# Predicate expressions

A predicate is an expression over the coordinates of a point. Numbers and
booleans are kept apart: an operand of the wrong sort is a type fault. Operands
are evaluated from left to right, and all of them, so a fault in the second
operand of a connective is found whatever the first one yields.
-/

namespace Subdomain

namespace Predicate

inductive MathFunction where
  | sqrt
  | abs
  | sin
  | cos
  | tan
  | exp
  | log
  deriving DecidableEq, Repr

namespace MathFunction

def all : List MathFunction := [sqrt, abs, sin, cos, tan, exp, log]

def name : MathFunction → String
  | sqrt => "sqrt"
  | abs => "abs"
  | sin => "sin"
  | cos => "cos"
  | tan => "tan"
  | exp => "exp"
  | log => "log"

def ofName? (s : String) : Option MathFunction := all.find? (·.name = s)

def apply : MathFunction → Float → Float
  | sqrt => Float.sqrt
  | abs => Float.abs
  | sin => Float.sin
  | cos => Float.cos
  | tan => Float.tan
  | exp => Float.exp
  | log => Float.log

end MathFunction

inductive Arithmetic where
  | add
  | sub
  | mul
  | div
  | pow
  deriving DecidableEq, Repr

def Arithmetic.apply : Arithmetic → Float → Float → Float
  | add, a, b => a + b
  | sub, a, b => a - b
  | mul, a, b => a * b
  | div, a, b => a / b
  | pow, a, b => a.pow b

inductive Comparison where
  | lt
  | le
  | gt
  | ge
  | eq
  | ne
  deriving DecidableEq, Repr

/-- Comparisons with what is not a number fail, but for `ne`. -/
def Comparison.apply : Comparison → Float → Float → Bool
  | lt, a, b => a < b
  | le, a, b => a ≤ b
  | gt, a, b => b < a
  | ge, a, b => b ≤ a
  | eq, a, b => a == b
  | ne, a, b => a != b

mutual

inductive Expr where
  | number (value : Float)
  | boolean (value : Bool)
  | coordinate (axis : Axis)
  | neg (e : Expr)
  | compl (e : Expr)
  | arith (op : Arithmetic) (left right : Expr)
  /-- A chain of comparisons, which holds if each of its links does. -/
  | compare (first : Expr) (links : Links)
  | conj (left right : Expr)
  | disj (left right : Expr)
  | call (f : MathFunction) (e : Expr)

/-- The comparisons of a chain, each with the operand on its right. -/
inductive Links where
  | nil
  | cons (op : Comparison) (operand : Expr) (rest : Links)

end

inductive Value where
  | number (value : Float)
  | boolean (value : Bool)

inductive TypeFault where
  | expectedNumber
  | expectedBoolean
  deriving DecidableEq, Repr

def TypeFault.message : TypeFault → String
  | expectedNumber => "expected a number, found a boolean"
  | expectedBoolean => "expected a boolean, found a number"

namespace Value

def asNumber : Value → Except TypeFault Float
  | number x => .ok x
  | boolean _ => .error .expectedNumber

def asBoolean : Value → Except TypeFault Bool
  | number _ => .error .expectedBoolean
  | boolean b => .ok b

end Value

mutual

def Expr.eval (p : Point) : Expr → Except TypeFault Value
  | .number x => .ok (.number x)
  | .boolean b => .ok (.boolean b)
  | .coordinate a => .ok (.number (p.get a))
  | .neg e => do
    let x ← (← e.eval p).asNumber
    return .number (-x)
  | .compl e => do
    let b ← (← e.eval p).asBoolean
    return .boolean (!b)
  | .arith op l r => do
    let a ← (← l.eval p).asNumber
    let b ← (← r.eval p).asNumber
    return .number (op.apply a b)
  | .compare first links => do
    let a ← (← first.eval p).asNumber
    return .boolean (← links.hold p a)
  | .conj l r => do
    let a ← (← l.eval p).asBoolean
    let b ← (← r.eval p).asBoolean
    return .boolean (a && b)
  | .disj l r => do
    let a ← (← l.eval p).asBoolean
    let b ← (← r.eval p).asBoolean
    return .boolean (a || b)
  | .call f e => do
    let x ← (← e.eval p).asNumber
    return .number (f.apply x)

/-- Whether every link holds, the first one against the value `left`. -/
def Links.hold (p : Point) (left : Float) : Links → Except TypeFault Bool
  | .nil => .ok true
  | .cons op e rest => do
    let right ← (← e.eval p).asNumber
    let others ← rest.hold p right
    return op.apply left right && others

end

mutual

/-- The axes that occur in an expression, from left to right. -/
def Expr.axes : Expr → List Axis
  | .number _ | .boolean _ => []
  | .coordinate a => [a]
  | .neg e | .compl e | .call _ e => e.axes
  | .arith _ l r | .conj l r | .disj l r => l.axes ++ r.axes
  | .compare first links => first.axes ++ links.axes

def Links.axes : Links → List Axis
  | .nil => []
  | .cons _ e rest => e.axes ++ rest.axes

end

/-- The last of the axes `x`, `y`, `z` that occurs in an expression. -/
def Expr.maxAxis? (e : Expr) : Option Axis := Axis.all.reverse.find? fun a => decide (a ∈ e.axes)

end Predicate

end Subdomain

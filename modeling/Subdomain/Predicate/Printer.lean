import Subdomain.Text.Bits
import Subdomain.Predicate.Expr

/-!
# Printed expressions

An expression as nested parentheses, the operator first. Numbers are written by
their bits.
-/

namespace Subdomain

namespace Predicate

def Arithmetic.word : Arithmetic → String
  | add => "add"
  | sub => "sub"
  | mul => "mul"
  | div => "div"
  | pow => "pow"

def Comparison.sign : Comparison → String
  | lt => "<"
  | le => "<="
  | gt => ">"
  | ge => ">="
  | eq => "=="
  | ne => "!="

mutual

def Expr.print : Expr → String
  | .number x => bitText x
  | .boolean b => if b then "true" else "false"
  | .coordinate a => a.name
  | .neg e => "(neg " ++ e.print ++ ")"
  | .compl e => "(not " ++ e.print ++ ")"
  | .arith op l r => "(" ++ op.word ++ " " ++ l.print ++ " " ++ r.print ++ ")"
  | .compare first links => "(cmp " ++ first.print ++ links.print ++ ")"
  | .conj l r => "(and " ++ l.print ++ " " ++ r.print ++ ")"
  | .disj l r => "(or " ++ l.print ++ " " ++ r.print ++ ")"
  | .call f e => "(" ++ f.name ++ " " ++ e.print ++ ")"

def Links.print : Links → String
  | .nil => ""
  | .cons op e rest => " " ++ op.sign ++ " " ++ e.print ++ rest.print

end

end Predicate

end Subdomain

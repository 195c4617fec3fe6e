import Subdomain.Lexical.Pattern

/-!
# Names and numbers

The patterns of names and of the parts of numbers. Letters and digits are those
of ASCII.
-/

namespace Subdomain

namespace Pattern

/-- A letter or underscore, then letters, digits and underscores. -/
def name : Pattern :=
  seq (one fun c => c.isAlpha || c == '_') (star (one fun c => c.isAlphanum || c == '_'))

def digits : Pattern := plus (one Char.isDigit)

/-- The letter `e` in either case, an optional sign and digits. -/
def exponent : Pattern :=
  seq (one fun c => c == 'e' || c == 'E') (seq (opt (one fun c => c == '+' || c == '-')) digits)

end Pattern

end Subdomain

/-!
# Bit text

A double written as the sixteen hexadecimal digits of its bits, so that reading
it back loses nothing. All numbers that are not a number are written alike.
-/

namespace Subdomain

/-- The last `width` hexadecimal digits of a number. -/
def hexDigits : Nat → Nat → List Char
  | 0, _ => []
  | width + 1, n => hexDigits width (n / 16) ++ [Nat.digitChar (n % 16)]

def bitText (x : Float) : String :=
  if x.isNaN then "nan" else .ofList (hexDigits 16 x.toBits.toNat)

end Subdomain

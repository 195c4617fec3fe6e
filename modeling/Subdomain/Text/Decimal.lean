/-!
# Decimal numbers

Writes integers and reads decimal numerals: whole numbers, and numbers with a
fraction and an exponent as the nearest double.
-/

namespace Subdomain

namespace Decimal

/-- An integer in decimal digits. -/
def charsOfInt (i : Int) : List Char :=
  if i < 0 then '-' :: Nat.toDigits 10 i.natAbs else Nat.toDigits 10 i.natAbs

def digit (c : Char) : Nat := c.toNat - '0'.toNat

/-- The number that a run of digits stands for. -/
def natOfDigits (cs : List Char) : Nat := cs.foldl (fun n c => 10 * n + digit c) 0

/-- A numeral: all its digits as one whole number, to be multiplied by a power of ten. -/
structure Numeral where
  digits : Nat
  exponent : Int
  deriving DecidableEq, Repr

/-- The exponent behind the letter `e`, with an optional sign. -/
def exponentOf : List Char → Int
  | '-' :: cs => -(natOfDigits cs : Int)
  | '+' :: cs => natOfDigits cs
  | cs => natOfDigits cs

/-- Reads digits, an optional point with more digits and an optional exponent. -/
def Numeral.ofChars (cs : List Char) : Numeral :=
  let whole := cs.takeWhile Char.isDigit
  let rest := cs.dropWhile Char.isDigit
  let (fraction, rest) := match rest with
    | '.' :: more => (more.takeWhile Char.isDigit, more.dropWhile Char.isDigit)
    | _ => ([], rest)
  let exponent := match rest with
    | 'e' :: more | 'E' :: more => exponentOf more
    | _ => 0
  ⟨natOfDigits (whole ++ fraction), exponent - fraction.length⟩

/-- The nearest double. Numerals that are plainly beyond the range of doubles are decided by their
count of digits. -/
def Numeral.toFloat (n : Numeral) : Float :=
  let magnitude : Int := (Nat.toDigits 10 n.digits).length + n.exponent
  if n.digits = 0 then 0
  else if 400 < magnitude then 1.0 / 0.0
  else if magnitude < -400 then 0
  else Float.ofScientific n.digits (decide (n.exponent < 0)) n.exponent.natAbs

end Decimal

end Subdomain

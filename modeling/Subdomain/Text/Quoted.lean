import Subdomain.Text.Unprintable

/-!
# Quoted text

A text in double quotes. Quotes, backslashes and characters that show nothing by
themselves are escaped.
-/

namespace Subdomain

/-- A code point in hexadecimal, as in `\u{7f}`. -/
def codeEscape (c : Char) : List Char :=
  ['\\', 'u', '\x7b'] ++ Nat.toDigits 16 c.toNat ++ ['\x7d']

def escape (c : Char) : List Char :=
  if c = '"' then ['\\', '"']
  else if c = '\\' then ['\\', '\\']
  else if c = '\n' then ['\\', 'n']
  else if c = '\r' then ['\\', 'r']
  else if c = '\t' then ['\\', 't']
  else if c.toNat = 0 then ['\\', '0']
  else if isUnprintable c then codeEscape c
  else [c]

def quoted (s : String) : String := .ofList ('"' :: s.toList.flatMap escape ++ ['"'])

/-- Quoted texts in brackets. -/
def quotedList (l : List String) : String := "[" ++ String.intercalate ", " (l.map quoted) ++ "]"

end Subdomain

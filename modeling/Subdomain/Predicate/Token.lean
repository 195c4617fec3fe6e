import Subdomain.Lexical.Token
import Subdomain.Lexical.Literal

/-!
# Tokens of predicates

Names, numbers and operators. The connectives have a word and a sign each.
-/

namespace Subdomain

namespace Predicate

inductive Word where
  | orWord
  | andWord
  | notWord
  | trueWord
  | falseWord
  | identifier
  | number
  | lt
  | le
  | gt
  | ge
  | eq
  | ne
  | plus
  | minus
  | star
  | slash
  | power
  | openParen
  | closeParen
  deriving DecidableEq, Repr

open Pattern in
/-- Digits with an optional fraction, or a fraction alone, and an optional exponent. -/
def numberPattern : Pattern :=
  alt
    (seq digits
      (seq (opt (seq (char '.') (star (one Char.isDigit)))) (opt exponent)))
    (seq (char '.') (seq digits (opt exponent)))

open Pattern in
def rules : List (Word × Pattern) :=
  [(.orWord, any [word "or", char '|']), (.andWord, any [word "and", char '&']),
   (.notWord, any [word "not", char '~']), (.trueWord, any [word "True", word "true"]),
   (.falseWord, any [word "False", word "false"]),
   (.identifier, Pattern.name), (.number, numberPattern),
   (.lt, char '<'), (.le, word "<="), (.gt, char '>'), (.ge, word ">="), (.eq, word "=="),
   (.ne, word "!="), (.plus, char '+'), (.minus, char '-'), (.star, char '*'),
   (.slash, char '/'), (.power, word "**"), (.openParen, char '('), (.closeParen, char ')')]

/-- The tokens of a predicate. -/
def tokens (text : List Char) : Except Fault (List (Token Word)) := Lexical.scan rules text

end Predicate

end Subdomain

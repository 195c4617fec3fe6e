import Subdomain.Lexical.Token
import Subdomain.Lexical.Literal

/-!
# Tokens of the selection language

The keywords, names, numbers and signs of selection texts. A keyword is also a
name wherever a name is expected (`Word.isName`). Signs that only occur inside
predicates are tokens as well, so that a predicate can be delimited by its
parentheses.
-/

namespace Subdomain

namespace Selection

inductive Word where
  | all
  | copy
  | vertex
  | vertices
  | cell
  | cells
  | inWord
  | ofWord
  | byWord
  | surface
  | group
  | set
  /-- A region by its name, `r.Name`. -/
  | reference
  | identifier
  | integer
  | float
  /-- A sign directly followed by a letter. -/
  | operator
  | plus
  | minus
  | star
  | symbol
  | amp
  | pipe
  | tilde
  | openParen
  | closeParen
  | openBracket
  | closeBracket
  | comma
  deriving DecidableEq, Repr

namespace Word

/-- Keywords and identifiers can stand for a name. -/
def isName : Word → Bool
  | all | copy | vertex | vertices | cell | cells | inWord | ofWord | byWord | surface | group | set
  | identifier => true
  | _ => false

end Word

open Pattern in
/-- Numbers with a point, an exponent or both. -/
def floatPattern : Pattern :=
  alt
    (seq (alt (seq digits (seq (char '.') (star (one Char.isDigit))))
        (seq (char '.') digits))
      (opt exponent))
    (seq digits exponent)

open Pattern in
def rules : List (Word × Pattern) :=
  [(.all, word "all"), (.copy, word "copy"), (.vertex, word "vertex"),
   (.vertices, word "vertices"), (.cell, any [word "cell", word "element"]),
   (.cells, any [word "cells", word "elements"]), (.inWord, word "in"), (.ofWord, word "of"),
   (.byWord, word "by"), (.surface, word "surface"), (.group, word "group"), (.set, word "set"),
   (.reference, seq (word "r.") Pattern.name),
   (.identifier, Pattern.name),
   (.integer, digits),
   (.float, floatPattern),
   (.operator, seq (one fun c => c == '-' || c == '+' || c == '*') (one Char.isAlpha)),
   (.plus, char '+'), (.minus, char '-'), (.star, char '*'),
   (.symbol, any [word "<", word "<=", word ">", word ">=", word "==", word "!=", word "/",
     word "**"]),
   (.amp, char '&'), (.pipe, char '|'), (.tilde, char '~'),
   (.openParen, char '('), (.closeParen, char ')'),
   (.openBracket, char '['), (.closeBracket, char ']'), (.comma, char ',')]

/-- The tokens of a selection text. -/
def tokens (text : List Char) : Except Fault (List (Token Word)) := Lexical.scan rules text

end Selection

end Subdomain

import Subdomain.SyntaxError
import Subdomain.Lexical.Pattern

/-!
# Tokens

A language of tokens is a list of rules, each a pattern with the kind of token it
stands for. A text is read by skipping blanks and taking the longest match of any
rule; of several rules with a longest match the first counts. A character at
which no rule matches is a fault.
-/

namespace Subdomain

structure Token (κ : Type) where
  kind : κ
  chars : List Char
  /-- The byte at which the token starts. -/
  offset : Nat
  deriving DecidableEq, Repr

namespace Token

variable {κ : Type}

def text (t : Token κ) : String := .ofList t.chars

/-- The byte behind the token. -/
def stop (t : Token κ) : Nat := t.offset + byteLength t.chars

end Token

namespace Lexical

variable {κ : Type}

/-- Space, tab, carriage return and line feed separate tokens. -/
def isBlank (c : Char) : Bool := c == ' ' || c == '\t' || c == '\r' || c == '\n'

/-- The first rule with the longest match at the front of a text, and the length of the match. -/
def best : List (κ × Pattern) → List Char → Option (κ × Nat)
  | [], _ => none
  | (k, p) :: rules, cs =>
    match p.longest cs, best rules cs with
    | some n, some (k', m) => if n < m then some (k', m) else some (k, n)
    | some n, none => some (k, n)
    | none, r => r

/-- The tokens of a text that starts at byte `offset` and whose first `skip` characters belong to
the token before. -/
def scanFrom (rules : List (κ × Pattern)) : Nat → Nat → List Char → Except Fault (List (Token κ))
  | _, _, [] => .ok []
  | offset, skip + 1, c :: cs => scanFrom rules (offset + c.utf8Size) skip cs
  | offset, 0, c :: cs =>
    if isBlank c then scanFrom rules (offset + c.utf8Size) 0 cs
    else match best rules (c :: cs) with
      | some (k, n + 1) => do
        let rest ← scanFrom rules (offset + c.utf8Size) n cs
        return ⟨k, (c :: cs).take (n + 1), offset⟩ :: rest
      | _ => .error ⟨.unexpectedCharacter, [c], offset⟩

/-- The tokens of a text. -/
def scan (rules : List (κ × Pattern)) (text : List Char) : Except Fault (List (Token κ)) :=
  scanFrom rules 0 0 text

end Lexical

end Subdomain

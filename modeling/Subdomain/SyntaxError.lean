import Subdomain.Text.Bytes

/-!
# Syntax errors

A fault says what is wrong and at which fragment of a text; a syntax error also
holds the text. Positions are byte offsets. A fault at the end of the text has
the fragment "end of input".
-/

namespace Subdomain

inductive SyntaxCause where
  /-- No token starts here. -/
  | unexpectedCharacter
  | nestedTooDeeply
  | expectedOpen
  | expectedClose
  | expectedBracket
  | expectedComma
  | expectedInteger
  | integerOutOfRange
  | expectedName
  | expectedOperator
  | unknownOperator
  | expectedRegion
  | expectedReference
  | expectedVertexForm
  | expectedVertexSource
  | expectedVertexOwner
  | expectedCellForm
  | expectedCellOwner
  | unbalancedParentheses
  | expectedExpression
  | unexpectedToken
  | unknownName
  | expectedArgument
  deriving DecidableEq, Repr

namespace SyntaxCause

def message : SyntaxCause → String
  | unexpectedCharacter => "unexpected character"
  | nestedTooDeeply => "expression nested too deeply"
  | expectedOpen => "expected '('"
  | expectedClose => "expected ')'"
  | expectedBracket => "expected ']'"
  | expectedComma => "expected ','"
  | expectedInteger => "expected an integer"
  | integerOutOfRange => "integer out of range"
  | expectedName => "expected a name"
  | expectedOperator => "expected a set operator"
  | unknownOperator => "unknown set operator, expected one of v, e, f, s, c"
  | expectedRegion => "expected a region expression"
  | expectedReference => "expected a region reference 'r.<name>'"
  | expectedVertexForm => "expected 'in', 'of', 'by' or a vertex index"
  | expectedVertexSource => "expected '[', '(' or a region reference"
  | expectedVertexOwner => "expected 'surface', 'group' or 'set'"
  | expectedCellForm => "expected 'by', 'of', '(' or a cell index"
  | expectedCellOwner => "expected 'group' or 'set'"
  | unbalancedParentheses => "unbalanced parentheses"
  | expectedExpression => "expected an expression"
  | unexpectedToken => "unexpected token after predicate"
  | unknownName => "unknown name"
  | expectedArgument => "expected '(' after function name"

end SyntaxCause

structure Fault where
  cause : SyntaxCause
  fragment : List Char
  position : Nat
  deriving DecidableEq, Repr

namespace Fault

def endFragment : List Char := "end of input".toList

/-- A fault behind a text of the given length. -/
def atEnd (cause : SyntaxCause) (length : Nat) : Fault := ⟨cause, endFragment, length⟩

/-- The same fault in a text that has `n` more bytes in front. -/
def shift (n : Nat) (f : Fault) : Fault := { f with position := n + f.position }

end Fault

structure SyntaxError extends Fault where
  text : List Char
  deriving DecidableEq, Repr

namespace SyntaxError

def message (e : SyntaxError) : String :=
  s!"syntax error at position {e.position} near '{String.ofList e.fragment}': " ++
    s!"{e.cause.message} (in \"{String.ofList e.text}\")"

end SyntaxError

end Subdomain

import Subdomain.Selection.Parser

/-!
# The grammar of selections

A form is a derivation tree of the grammar that `Selection/Parser.lean` states.
Every terminal of a form holds its token, so that a form has the tokens that it
derives, the integers and predicates among them, the depth to which its
parentheses nest and, if its predicates can be read, the tree it stands for.
-/

namespace Subdomain

namespace Selection

abbrev Tokens : Type := List (Token Word)

/-! ## Terminals -/

/-- A token of kind `k`. -/
abbrev Terminal (k : Word) : Type := { t : Token Word // t.kind = k }

/-- A keyword or an identifier where a name stands. -/
abbrev NameForm : Type := { t : Token Word // t.kind.isName = true }

abbrev NotForm : Type := { t : Token Word // t.kind = .tilde ∨ isWord "not" t = true }

abbrev ConnectiveForm : Type :=
  { t : Token Word //
    t.kind = .amp ∨ t.kind = .pipe ∨ isWord "and" t = true ∨ isWord "or" t = true }

/-- The kinds of the tokens that start with a sign. -/
def Word.isSign : Word → Bool
  | operator | plus | minus | star => true
  | _ => false

/-- A set operator is spelled as its sign with the code of its kind. A sign alone stands for the
operator on vertices. -/
inductive Spells : SetOperator → List Char → Prop where
  | coded (o : SetOperator) : Spells o o.chars
  | bare (op : SetOp) : Spells ⟨op, .vertex⟩ [op.sign]

structure OperatorForm where
  token : Token Word
  sign : token.kind.isSign = true
  operator : SetOperator
  spelled : Spells operator token.chars

/-- An integer with an optional minus in front. -/
structure SignedForm where
  minus : Option (Terminal .minus)
  digits : Terminal .integer

def intOf (t : Token Word) : Int := Decimal.natOfDigits t.chars

def SignedForm.tokens (d : SignedForm) : Tokens := (d.minus.map (·.val)).toList ++ [d.digits.val]

def SignedForm.value (d : SignedForm) : Int :=
  if d.minus.isSome then -intOf d.digits.val else intOf d.digits.val

/-! ## Lists -/

/-- One or more items, with an optional comma in front of each but the first. -/
structure ItemsForm (φ : Type) where
  head : φ
  tail : List (Option (Terminal .comma) × φ)

namespace ItemsForm

variable {φ : Type}

def tailTokens (f : φ → Tokens) : List (Option (Terminal .comma) × φ) → Tokens
  | [] => []
  | (comma, d) :: rest => (comma.map (·.val)).toList ++ f d ++ tailTokens f rest

def tokens (f : φ → Tokens) (l : ItemsForm φ) : Tokens := f l.head ++ tailTokens f l.tail

def items (l : ItemsForm φ) : List φ := l.head :: l.tail.map (·.2)

end ItemsForm

abbrev IntegersForm : Type := ItemsForm (Terminal .integer)

namespace IntegersForm

def tokens (l : IntegersForm) : Tokens := ItemsForm.tokens (fun t => [t.val]) l

def integers (l : IntegersForm) : Tokens := l.items.map (·.val)

def values (l : IntegersForm) : List Int := l.items.map (intOf ·.val)

end IntegersForm

structure PairForm where
  openParen : Terminal .openParen
  group : Terminal .integer
  comma : Terminal .comma
  cell : Terminal .integer
  closeParen : Terminal .closeParen

namespace PairForm

def tokens (d : PairForm) : Tokens :=
  [d.openParen.val, d.group.val, d.comma.val, d.cell.val, d.closeParen.val]

def integers (d : PairForm) : Tokens := [d.group.val, d.cell.val]

def value (d : PairForm) : Int × Int := (intOf d.group.val, intOf d.cell.val)

end PairForm

/-! ## Predicates -/

/-- Tokens in which parentheses are balanced. -/
inductive Balanced where
  | nil
  | token (t : { t : Token Word // t.kind ≠ .openParen ∧ t.kind ≠ .closeParen }) (rest : Balanced)
  | group (openParen : Terminal .openParen) (inner : Balanced) (closeParen : Terminal .closeParen)
    (rest : Balanced)

def Balanced.tokens : Balanced → Tokens
  | nil => []
  | token t rest => t.val :: rest.tokens
  | group o inner c rest => o.val :: (inner.tokens ++ c.val :: rest.tokens)

structure ClauseForm where
  negation : Option NotForm
  openParen : Terminal .openParen
  body : Balanced
  closeParen : Terminal .closeParen

def ClauseForm.tokens (d : ClauseForm) : Tokens :=
  (d.negation.map (·.val)).toList ++ d.openParen.val :: (d.body.tokens ++ [d.closeParen.val])

structure PredicateForm where
  head : ClauseForm
  tail : List (ConnectiveForm × ClauseForm)

namespace PredicateForm

def tailTokens : List (ConnectiveForm × ClauseForm) → Tokens
  | [] => []
  | (op, d) :: rest => op.val :: (d.tokens ++ tailTokens rest)

def tokens (d : PredicateForm) : Tokens := d.head.tokens ++ tailTokens d.tail

/-- The part of the text from the first to the last token. -/
def slice (text : List Char) (d : PredicateForm) : List Char :=
  match d.tokens.head?, d.tokens.getLast? with
  | some first, some last => sliceBytes first.offset last.stop text
  | _, _ => []

def predicate? (text : List Char) (d : PredicateForm) : Option Predicate :=
  (Predicate.parse (d.slice text)).toOption

end PredicateForm

/-! ## Leaves -/

/-- What stands behind `in`, behind `vertex` if `singular`. -/
inductive SourceForm : Bool → Type where
  | list {singular : Bool} (openBracket : Terminal .openBracket) (list : IntegersForm)
    (closeBracket : Terminal .closeBracket) : SourceForm singular
  | predicate {singular : Bool} (predicate : PredicateForm) : SourceForm singular
  | region (region : Terminal .reference) : SourceForm true

namespace SourceForm

variable {singular : Bool}

def tokens : SourceForm singular → Tokens
  | list o l c => o.val :: (l.tokens ++ [c.val])
  | predicate p => p.tokens
  | region r => [r.val]

def integers : SourceForm singular → Tokens
  | list _ l _ => l.integers
  | _ => []

def predicates : SourceForm singular → List PredicateForm
  | predicate p => [p]
  | _ => []

def leaf? (text : List Char) : SourceForm singular → Option Leaf
  | list _ l _ => some (.verticesInList l.values)
  | predicate p => (p.predicate? text).map .verticesIn
  | region r => some (.vertexOfRegion (referenceName r.val))

end SourceForm

/-- A group or a set, behind `of`. -/
inductive OwnerForm where
  | group (word : Terminal .group) (id : SignedForm)
  | set (word : Terminal .set) (name : NameForm)

namespace OwnerForm

def tokens : OwnerForm → Tokens
  | group w i => w.val :: i.tokens
  | set w n => [w.val, n.val]

def integers : OwnerForm → Tokens
  | group _ i => [i.digits.val]
  | set _ _ => []

def leaf (ofGroup : Int → Leaf) (ofSet : String → Leaf) : OwnerForm → Leaf
  | group _ i => ofGroup i.value
  | set _ n => ofSet n.val.text

end OwnerForm

/-- What stands behind `vertex`, or behind `vertices` if not `singular`. -/
inductive VertexForm : Bool → Type where
  | source {singular : Bool} (inWord : Terminal .inWord) (form : SourceForm singular) :
    VertexForm singular
  | surface {singular : Bool} (ofWord : Terminal .ofWord) (word : Terminal .surface) :
    VertexForm singular
  | owner {singular : Bool} (ofWord : Terminal .ofWord) (form : OwnerForm) : VertexForm singular
  | function {singular : Bool} (byWord : Terminal .byWord) (name : NameForm) : VertexForm singular
  | list {singular : Bool} (list : IntegersForm) : VertexForm singular

namespace VertexForm

variable {singular : Bool}

def tokens : VertexForm singular → Tokens
  | source w d => w.val :: d.tokens
  | surface w t => [w.val, t.val]
  | owner w d => w.val :: d.tokens
  | function w n => [w.val, n.val]
  | list l => l.tokens

def integers : VertexForm singular → Tokens
  | source _ d => d.integers
  | owner _ d => d.integers
  | list l => l.integers
  | _ => []

def predicates : VertexForm singular → List PredicateForm
  | source _ d => d.predicates
  | _ => []

def leaf? (text : List Char) : VertexForm singular → Option Leaf
  | source _ d => d.leaf? text
  | surface _ _ => some .surface
  | owner _ d => some (d.leaf .verticesOfGroup .verticesOfSet)
  | function _ n => some (.verticesBy n.val.text)
  | list l => some (.vertices l.values)

end VertexForm

/-- What stands behind one of the words for cells. -/
inductive CellForm where
  | owner (ofWord : Terminal .ofWord) (form : OwnerForm)
  | function (byWord : Terminal .byWord) (name : NameForm)
  | pairs (list : ItemsForm PairForm)
  | list (list : IntegersForm)

namespace CellForm

def tokens : CellForm → Tokens
  | owner w d => w.val :: d.tokens
  | function w n => [w.val, n.val]
  | pairs l => l.tokens PairForm.tokens
  | list l => l.tokens

def integers : CellForm → Tokens
  | owner _ d => d.integers
  | pairs l => l.items.flatMap PairForm.integers
  | list l => l.integers
  | _ => []

def leaf : CellForm → Leaf
  | owner _ d => d.leaf .cellsOfGroup .cellsOfSet
  | function _ n => .cellsBy n.val.text
  | pairs l => .groupCells (l.items.map PairForm.value)
  | list l => .cells l.values

end CellForm

inductive LeafForm where
  | all (word : Terminal .all)
  | region (region : Terminal .reference)
  | copy (word : Terminal .copy) (region : Terminal .reference)
  | vertex (word : Terminal .vertex) (form : VertexForm true)
  | vertices (word : Terminal .vertices) (form : VertexForm false)
  | cells (word : { t : Token Word // t.kind = .cell ∨ t.kind = .cells }) (form : CellForm)

namespace LeafForm

def tokens : LeafForm → Tokens
  | all w => [w.val]
  | region r => [r.val]
  | copy w r => [w.val, r.val]
  | vertex w d => w.val :: d.tokens
  | vertices w d => w.val :: d.tokens
  | cells w d => w.val :: d.tokens

def integers : LeafForm → Tokens
  | vertex _ d => d.integers
  | vertices _ d => d.integers
  | cells _ d => d.integers
  | _ => []

def predicates : LeafForm → List PredicateForm
  | vertex _ d => d.predicates
  | vertices _ d => d.predicates
  | _ => []

def leaf? (text : List Char) : LeafForm → Option Leaf
  | all _ => some .all
  | region r => some (.region (referenceName r.val))
  | copy _ r => some (.copy (referenceName r.val))
  | vertex _ d => d.leaf? text
  | vertices _ d => d.leaf? text
  | cells _ d => some d.leaf

end LeafForm

/-! ## Expressions -/

mutual

/-- A term and the operators with their terms behind it. -/
inductive ExprForm where
  | mk (head : TermForm) (tail : TailForm)

inductive TailForm where
  | nil
  | cons (op : OperatorForm) (term : TermForm) (rest : TailForm)

inductive TermForm where
  | leaf (form : LeafForm)
  | parens (openParen : Terminal .openParen) (inner : ExprForm)
    (closeParen : Terminal .closeParen)

end

mutual

def ExprForm.tokens : ExprForm → Tokens
  | .mk head tail => head.tokens ++ tail.tokens

def TailForm.tokens : TailForm → Tokens
  | .nil => []
  | .cons op term rest => op.token :: (term.tokens ++ rest.tokens)

def TermForm.tokens : TermForm → Tokens
  | .leaf d => d.tokens
  | .parens o inner c => o.val :: (inner.tokens ++ [c.val])

end

mutual

/-- The integers of an expression, those inside predicates apart. -/
def ExprForm.integers : ExprForm → Tokens
  | .mk head tail => head.integers ++ tail.integers

def TailForm.integers : TailForm → Tokens
  | .nil => []
  | .cons _ term rest => term.integers ++ rest.integers

def TermForm.integers : TermForm → Tokens
  | .leaf d => d.integers
  | .parens _ inner _ => inner.integers

end

mutual

def ExprForm.predicates : ExprForm → List PredicateForm
  | .mk head tail => head.predicates ++ tail.predicates

def TailForm.predicates : TailForm → List PredicateForm
  | .nil => []
  | .cons _ term rest => term.predicates ++ rest.predicates

def TermForm.predicates : TermForm → List PredicateForm
  | .leaf d => d.predicates
  | .parens _ inner _ => inner.predicates

end

mutual

/-- How deep the parentheses around expressions nest. -/
def ExprForm.nesting : ExprForm → Nat
  | .mk head tail => max head.nesting tail.nesting

def TailForm.nesting : TailForm → Nat
  | .nil => 0
  | .cons _ term rest => max term.nesting rest.nesting

def TermForm.nesting : TermForm → Nat
  | .leaf _ => 0
  | .parens _ inner _ => inner.nesting + 1

end

mutual

/-- The tree of an expression. Operators lean to the left. -/
def ExprForm.tree? (text : List Char) : ExprForm → Option Tree
  | .mk head tail => do tail.treeFrom? text (← head.tree? text)

/-- The tree of an expression whose tree is `left` up to here. -/
def TailForm.treeFrom? (text : List Char) (left : Tree) : TailForm → Option Tree
  | .nil => some left
  | .cons op term rest => do rest.treeFrom? text (.combine left op.operator (← term.tree? text))

def TermForm.tree? (text : List Char) : TermForm → Option Tree
  | .leaf d => (d.leaf? text).map .leaf
  | .parens _ inner _ => inner.tree? text

end

end Selection

end Subdomain

import Subdomain.Lexical.Cursor
import Subdomain.Selection.Token
import Subdomain.Selection.Program

/-!
# Reading selections

```text
expr      := term (SETOP term)*
term      := '(' expr ')' | leaf
leaf      := 'all' | REFERENCE | 'copy' REFERENCE
           | VERTICES 'in' ('[' ints ']' | predicate) | 'vertex' 'in' REFERENCE
           | VERTICES 'of' ('surface' | 'group' '-'? INT | 'set' NAME)
           | VERTICES 'by' NAME | VERTICES ints
           | CELLS 'of' ('group' '-'? INT | 'set' NAME)
           | CELLS 'by' NAME | CELLS ints | CELLS pair (','? pair)*
ints      := INT (','? INT)*
pair      := '(' INT ',' INT ')'
predicate := clause (('&' | '|' | 'and' | 'or') clause)*
clause    := ('~' | 'not')? '(' ... ')'
```

`SETOP` is a sign with a kind code, or a sign alone, which acts on vertices. All
set operators have one precedence and lean to the left. Parentheses around
expressions nest at most `maxDepth` deep. A predicate is delimited by its
parentheses and read from the text between them.
-/

namespace Subdomain

namespace Selection

/-- The text that is read. -/
structure Source where
  chars : List Char
  length : Nat

def Source.ofChars (chars : List Char) : Source := ⟨chars, byteLength chars⟩

abbrev Reading (α : Type) (c : Cursor Word) : Type := Except Fault (Parsed Word α c)

def isWord (w : String) (t : Token Word) : Bool :=
  decide (t.kind = .identifier) && decide (t.chars = w.toList)

/-- The name in a reference `r.Name`. -/
def referenceName (t : Token Word) : String := .ofList (t.chars.drop 2)

variable (s : Source)

def reference (cause : SyntaxCause) (c : Cursor Word) : Reading String c :=
  return (← c.expect s.length .reference cause).map referenceName

def name (c : Cursor Word) : Reading String c :=
  match c.take? fun t => if t.kind.isName then some t.text else none with
  | some p => .ok p
  | none => .error (c.fault s.length .expectedName)

/-- The greatest integer that a text may contain. -/
def maxInteger : Nat := 0x7fffffffffffffff

def integer (c : Cursor Word) : Reading Int c := do
  let t ← c.expect s.length .integer .expectedInteger
  let n := Decimal.natOfDigits t.value.chars
  if n ≤ maxInteger then return t.map fun _ => (n : Int)
  else throw (c.fault s.length .integerOutOfRange)

def signedInteger (c : Cursor Word) : Reading Int c :=
  match c.eat? .minus with
  | none => integer s c
  | some sign => return (sign.skipTo (← integer s sign.next)).map (- ·)

/-- Steps over a comma that a token of kind `k` follows. -/
def skipComma (k : Word) (c : Cursor Word) : Cursor Word :=
  match c.rest with
  | t :: u :: ts => if t.kind = .comma ∧ u.kind = k then { c with rest := u :: ts } else c
  | _ => c

theorem length_skipComma (k : Word) (c : Cursor Word) :
    (skipComma k c).rest.length ≤ c.rest.length := by
  unfold skipComma
  split
  · rename_i t u ts h
    split
    · simp [h]
    · exact Nat.le_refl _
  · exact Nat.le_refl _

/-- Reads items, each behind an optional comma, as long as a token of kind `k` starts one. -/
def itemsTail {α : Type} {c : Cursor Word} (k : Word)
    (item : (c : Cursor Word) → Reading α c) (left : Parsed Word α c) : Reading (List α) c :=
  let next := skipComma k left.next
  have le := length_skipComma k left.next
  if next.kind? = some k then do
    let e ← item next
    have := Nat.lt_of_lt_of_le e.shorter le
    let rest ← itemsTail k item ⟨e.value, e.next, Nat.lt_trans this left.shorter⟩
    return rest.map (left.value :: ·)
  else .ok (left.map ([·]))
termination_by left.next.rest.length

/-- Reads one or more items. -/
def items {α : Type} (k : Word) (item : (c : Cursor Word) → Reading α c) (c : Cursor Word) :
    Reading (List α) c := do
  itemsTail k item (← item c)

def integers (c : Cursor Word) : Reading (List Int) c := items .integer (integer s) c

def pair (c : Cursor Word) : Reading (Int × Int) c := do
  let paren ← c.expect s.length .openParen .expectedOpen
  let group ← integer s paren.next
  let comma ← group.next.expect s.length .comma .expectedComma
  let cell ← integer s comma.next
  let close ← cell.next.expect s.length .closeParen .expectedClose
  return (paren.skipTo (group.skipTo (comma.skipTo (cell.skipTo close)))).map
    fun _ => (group.value, cell.value)

/-- The token at which the parentheses opened so far, `depth` many, and those to come are balanced,
and what follows it. -/
def closing : Nat → List (Token Word) → Option (Token Word × List (Token Word))
  | _, [] => none
  | depth, t :: ts =>
    match t.kind with
    | .openParen => closing (depth + 1) ts
    | .closeParen => if depth ≤ 1 then some (t, ts) else closing (depth - 1) ts
    | _ => closing depth ts

theorem length_closing {depth : Nat} {ts rest : List (Token Word)} {t : Token Word}
    (h : closing depth ts = some (t, rest)) : rest.length < ts.length := by
  induction ts generalizing depth with
  | nil => simp [closing] at h
  | cons u us ih =>
    simp only [closing] at h
    split at h
    · exact Nat.lt_succ_of_lt (ih h)
    · split at h
      · simp_all
      · exact Nat.lt_succ_of_lt (ih h)
    · exact Nat.lt_succ_of_lt (ih h)

/-- Steps over a negation, if there is one. -/
def skipNegation (c : Cursor Word) : Cursor Word :=
  match c.rest with
  | t :: ts => if t.kind = .tilde ∨ isWord "not" t then { c with rest := ts } else c
  | [] => c

theorem length_skipNegation (c : Cursor Word) :
    (skipNegation c).rest.length ≤ c.rest.length := by
  unfold skipNegation
  split
  · rename_i t ts h
    split
    · simp [h]
    · exact Nat.le_refl _
  · exact Nat.le_refl _

/-- Delimits a clause of a predicate and gives its last token. -/
def clause (c : Cursor Word) : Reading (Token Word) c :=
  let body := skipNegation c
  if body.kind? = some .openParen then
    match h : closing 0 body.rest with
    | some (t, rest) =>
      .ok ⟨t, { c with rest },
        Nat.lt_of_lt_of_le (length_closing h) (length_skipNegation c)⟩
    | none => .error (.atEnd .unbalancedParentheses s.length)
  else .error (body.fault s.length .expectedOpen)

def connective? (t : Token Word) : Option Unit :=
  if t.kind = .amp ∨ t.kind = .pipe ∨ isWord "and" t ∨ isWord "or" t then some () else none

/-- Delimits the clauses behind one that is delimited already. -/
def clausesTail {c : Cursor Word} (left : Parsed Word (Token Word) c) : Reading (Token Word) c :=
  match left.next.take? connective? with
  | none => .ok left
  | some op => do
    let right ← clause s op.next
    have := op.shorter
    have := right.shorter
    clausesTail (left.skipTo (op.skipTo right))
termination_by left.next.rest.length

/-- Delimits a predicate and reads the text from its first to its last token. -/
def predicate (c : Cursor Word) : Reading Predicate c := do
  let last ← clausesTail s (← clause s c)
  let start := (c.rest.head?.map (·.offset)).getD s.length
  match Predicate.parse (sliceBytes start last.value.stop s.chars) with
  | .ok p => return last.map fun _ => p
  | .error f => throw (f.shift start)

/-- Reads what stands behind `in`. -/
def vertexSource (singular : Bool) (c : Cursor Word) : Reading Leaf c :=
  match c.eat? .openBracket with
  | some bracket => do
    let list ← integers s bracket.next
    let close ← list.next.expect s.length .closeBracket .expectedBracket
    return (bracket.skipTo (list.skipTo close)).map fun _ => .verticesInList list.value
  | none =>
    if singular ∧ c.kind? = some .reference then do
      return (← reference s .expectedVertexSource c).map .vertexOfRegion
    else if c.kind? = some .openParen ∨ c.kind? = some .tilde ∨
        c.rest.head?.any (isWord "not") then do
      return (← predicate s c).map .verticesIn
    else .error (c.fault s.length .expectedVertexSource)

/-- Reads a group or a set, behind `of`. -/
def owner (ofGroup : Int → Leaf) (ofSet : String → Leaf) (cause : SyntaxCause)
    (c : Cursor Word) : Reading Leaf c :=
  match c.eat? .group with
  | some group => do return (group.skipTo (← signedInteger s group.next)).map ofGroup
  | none =>
    match c.eat? .set with
    | some set => do return (set.skipTo (← name s set.next)).map ofSet
    | none => .error (c.fault s.length cause)

def vertexOwner (c : Cursor Word) : Reading Leaf c :=
  match c.eat? .surface with
  | some surface => .ok (surface.map fun _ => .surface)
  | none => owner s .verticesOfGroup .verticesOfSet .expectedVertexOwner c

def cellOwner (c : Cursor Word) : Reading Leaf c :=
  owner s .cellsOfGroup .cellsOfSet .expectedCellOwner c

/-- Reads a leaf behind `vertex`, or behind `vertices` if not `singular`. -/
def vertexLeaf (singular : Bool) (c : Cursor Word) : Reading Leaf c :=
  match c.eat? .inWord with
  | some word => do return word.skipTo (← vertexSource s singular word.next)
  | none =>
    match c.eat? .ofWord with
    | some word => do return word.skipTo (← vertexOwner s word.next)
    | none =>
      match c.eat? .byWord with
      | some word => do return (word.skipTo (← name s word.next)).map .verticesBy
      | none =>
        if c.kind? = some .integer then do return (← integers s c).map .vertices
        else .error (c.fault s.length .expectedVertexForm)

/-- Reads a leaf behind one of the words for cells. -/
def cellLeaf (c : Cursor Word) : Reading Leaf c :=
  match c.eat? .byWord with
  | some word => do return (word.skipTo (← name s word.next)).map .cellsBy
  | none =>
    match c.eat? .ofWord with
    | some word => do return word.skipTo (← cellOwner s word.next)
    | none =>
      if c.kind? = some .openParen then do
        return (← items .openParen (pair s) c).map .groupCells
      else if c.kind? = some .integer then do return (← integers s c).map .cells
      else .error (c.fault s.length .expectedCellForm)

def leaf (c : Cursor Word) : Reading Leaf c :=
  match c.take? some with
  | none => .error (c.fault s.length .expectedRegion)
  | some t =>
    match t.value.kind with
    | .all => .ok (t.map fun _ => .all)
    | .reference => .ok (t.map fun t => .region (referenceName t))
    | .copy => return (t.skipTo (← reference s .expectedReference t.next)).map .copy
    | .vertex => return t.skipTo (← vertexLeaf s true t.next)
    | .vertices => return t.skipTo (← vertexLeaf s false t.next)
    | .cell | .cells => return t.skipTo (← cellLeaf s t.next)
    | _ => .error (c.fault s.length .expectedRegion)

/-- The operator that a token spells, if the token starts with a sign. -/
def signed? (t : Token Word) : Option (Option SetOperator) :=
  match t.kind with
  | .operator | .plus | .minus | .star => some (SetOperator.ofChars? t.chars)
  | _ => none

/-- Reads a set operator, if there is one. -/
def operator? (c : Cursor Word) : Except Fault (Option (Parsed Word SetOperator c)) :=
  match c.take? signed? with
  | none => .ok none
  | some p =>
    match p.value with
    | some op => .ok (some (p.map fun _ => op))
    | none => .error (c.fault s.length .unknownOperator)

mutual

def expr (c : Cursor Word) : Reading Tree c := do
  let left ← term c
  have := left.shorter
  exprTail left
termination_by 4 * c.rest.length + 2

/-- Reads on behind the operand `left`. -/
def exprTail {c : Cursor Word} (left : Parsed Word Tree c) : Reading Tree c := do
  match ← operator? s left.next with
  | none => return left
  | some op =>
    have := op.shorter
    let right ← term op.next
    have := right.shorter
    exprTail ((left.skipTo (op.skipTo right)).map (.combine left.value op.value))
termination_by 4 * left.next.rest.length

def term (c : Cursor Word) : Reading Tree c :=
  match c.eat? .openParen with
  | none => return (← leaf s c).map .leaf
  | some paren =>
    if c.depth = maxDepth then .error (c.fault s.length .nestedTooDeeply)
    else do
      let inner := paren.atDepth (c.depth + 1)
      have := paren.shorter
      let e ← expr inner.next
      let close ← e.next.expect s.length .closeParen .expectedClose
      return ((inner.skipTo (e.skipTo close)).map fun _ => e.value).atDepth (close.next.depth - 1)
termination_by 4 * c.rest.length + 1

end

/-- Reads a whole text as a selection. -/
def parseTree (text : List Char) : Except Fault Tree := do
  let s := Source.ofChars text
  let ts ← tokens text
  let e ← expr s ⟨ts, 0⟩
  if e.next.rest.isEmpty then return e.value
  else throw (e.next.fault s.length .expectedOperator)

/-- The program of a selection text. -/
def parse (text : List Char) : Except SyntaxError Program :=
  match parseTree text with
  | .ok t => .ok t.program
  | .error f => .error { f with text }

theorem parse_eq_ok_iff {text : List Char} {p : Program} :
    parse text = .ok p ↔ ∃ t, parseTree text = .ok t ∧ p = t.program := by
  unfold parse
  cases parseTree text <;> simp [eq_comm]

end Selection

end Subdomain

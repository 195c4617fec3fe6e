import Subdomain.Predicate.Parser

/-!
# Leaves

A leaf selects vertices or cells directly, or reads a region by its name.
`Leaf.chars` writes a leaf in the words of the selection language.
-/

namespace Subdomain

namespace Selection

inductive Leaf where
  | all
  /-- A region itself. -/
  | region (name : String)
  /-- A duplicate of a region. -/
  | copy (name : String)
  | surface
  | verticesIn (p : Predicate)
  | verticesInList (list : List Int)
  | verticesBy (function : String)
  | cellsBy (function : String)
  | cellsOfGroup (material : Int)
  | cellsOfSet (name : String)
  /-- The vertices with a tag. -/
  | verticesOfGroup (tag : Int)
  | verticesOfSet (name : String)
  /-- The first vertex of a region. -/
  | vertexOfRegion (name : String)
  | vertices (list : List Int)
  /-- Cells by their number in the mesh. -/
  | cells (list : List Int)
  /-- Cells by group and number in the group. -/
  | groupCells (pairs : List (Int × Int))

namespace Leaf

/-- The region that a leaf reads. -/
def reference? : Leaf → Option String
  | region n | copy n | vertexOfRegion n => some n
  | _ => none

def comma : List Char := [',', ' ']

/-- A cell by group and number. -/
def pairChars (p : Int × Int) : List Char :=
  '(' :: Decimal.charsOfInt p.1 ++ comma ++ Decimal.charsOfInt p.2 ++ [')']

def listChars (l : List Int) : List Char := comma.intercalate (l.map Decimal.charsOfInt)

def chars : Leaf → List Char
  | all => "all".toList
  | region n => "r.".toList ++ n.toList
  | copy n => "copy r.".toList ++ n.toList
  | surface => "vertices of surface".toList
  | verticesIn p => "vertices in ".toList ++ p.text
  | verticesInList l => "vertices in [".toList ++ listChars l ++ [']']
  | verticesBy f => "vertices by ".toList ++ f.toList
  | cellsBy f => "cells by ".toList ++ f.toList
  | cellsOfGroup i => "cells of group ".toList ++ Decimal.charsOfInt i
  | cellsOfSet n => "cells of set ".toList ++ n.toList
  | verticesOfGroup i => "vertices of group ".toList ++ Decimal.charsOfInt i
  | verticesOfSet n => "vertices of set ".toList ++ n.toList
  | vertexOfRegion n => "vertex in r.".toList ++ n.toList
  | vertices l => "vertices ".toList ++ listChars l
  | cells l => "cells ".toList ++ listChars l
  | groupCells ps => "cells ".toList ++ comma.intercalate (ps.map pairChars)

def text (l : Leaf) : String := .ofList l.chars

end Leaf

end Selection

end Subdomain

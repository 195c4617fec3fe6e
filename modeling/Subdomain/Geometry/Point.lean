/-!
# Points

Points with double-precision coordinates. Plane meshes keep `z` at zero.
-/

namespace Subdomain

inductive Axis where
  | x
  | y
  | z
  deriving DecidableEq, Repr

namespace Axis

def all : List Axis := [x, y, z]

def index : Axis → Nat
  | x => 0
  | y => 1
  | z => 2

def name : Axis → String
  | x => "x"
  | y => "y"
  | z => "z"

end Axis

structure Point where
  x : Float
  y : Float
  z : Float

namespace Point

def get (p : Point) : Axis → Float
  | .x => p.x
  | .y => p.y
  | .z => p.z

def ofAxes (f : Axis → Float) : Point := ⟨f .x, f .y, f .z⟩

def zero : Point := ⟨0, 0, 0⟩

/-- Applies `f` to each pair of coordinates. -/
def zipWith (f : Float → Float → Float) (p q : Point) : Point := ⟨f p.x q.x, f p.y q.y, f p.z q.z⟩

def map (f : Float → Float) (p : Point) : Point := ⟨f p.x, f p.y, f p.z⟩

instance : Add Point := ⟨zipWith (· + ·)⟩

instance : Sub Point := ⟨zipWith (· - ·)⟩

end Point

end Subdomain

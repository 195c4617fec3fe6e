import Subdomain.Geometry.Point

/-!
# Bounding boxes

The smallest axis-parallel box around a list of points. The box around no point
has inverted infinite corners. Of two coordinates that cannot be compared the
later one is kept, so a box forgets a coordinate that is not a number as soon as
another point follows it.
-/

namespace Subdomain

structure Box where
  lo : Point
  hi : Point

namespace Box

def infinity : Float := 1.0 / 0.0

/-- The smaller of two coordinates; `b` if they cannot be compared. -/
def lower (a b : Float) : Float := if a ≤ b then a else b

/-- The larger of two coordinates; `b` if they cannot be compared. -/
def upper (a b : Float) : Float := if a ≥ b then a else b

def empty : Box := ⟨⟨infinity, infinity, infinity⟩, ⟨-infinity, -infinity, -infinity⟩⟩

def ofPoints (ps : List Point) : Box :=
  ps.foldl (fun b p => ⟨b.lo.zipWith lower p, b.hi.zipWith upper p⟩) empty

def isEmpty (b : Box) : Bool := b.lo.x > b.hi.x || b.lo.y > b.hi.y || b.lo.z > b.hi.z

/-- Side lengths. -/
def size (b : Box) : Point := b.hi - b.lo

def center (b : Box) : Point := (b.lo + b.hi).map (· * 0.5)

/-- The longest side. -/
def maxExtent (b : Box) : Float := upper (upper b.size.x b.size.y) b.size.z

/-- Whether the corners are those of `empty`. -/
def isInverted (b : Box) : Bool :=
  b.lo.x == infinity && b.lo.y == infinity && b.lo.z == infinity &&
    b.hi.x == -infinity && b.hi.y == -infinity && b.hi.z == -infinity

end Box

end Subdomain

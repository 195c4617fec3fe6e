import Subdomain.Operator
import Subdomain.Region.Completion

/-!
# Conversion and combination

Converting a region makes its set of another kind authoritative and derives the
others again. Combining two regions applies a set operation to their sets of one
kind; the result is complete and has that kind. Faces are refused where the
domain has none.
-/

namespace Subdomain

/-- What a change to a region leaves behind, and the error if the change failed. -/
structure Change where
  region : Region
  error? : Option RegionError

namespace Change

def toExcept (c : Change) : Except RegionError Region :=
  match c.error? with
  | some e => .error e
  | none => .ok c.region

end Change

namespace Region

/-- Completes a region; on failure it stays as it is. -/
def completed (t : Topology) (r : Region) : Change :=
  match r.complete t with
  | .ok r' => ⟨r', none⟩
  | .error e => ⟨r, some e⟩

/-- Makes the set of a kind authoritative as it stands. -/
def promote (r : Region) (kind : Kind) : Region := r.reset kind (r.extent.part kind)

/-- Converts a region to a kind. If the last step fails, which takes a region that was completed
on another topology, the region is left incomplete. -/
def setKind (t : Topology) (kind : Kind) (r : Region) : Change :=
  if kind = .face ∧ !t.hasFaces then ⟨r, some (.unsupported kind.name .faces)⟩
  else match r.ensureComplete t with
    | .error e => ⟨r, some e⟩
    | .ok r' =>
      if kind = r'.source then ⟨{ r' with kind }, none⟩ else (r'.promote kind).completed t

end Region

/-- Applies a set operation. -/
def SetOp.apply {α : Type} [LinearKey α] [DecidableEq α] (a b : SortedSet α) :
    SetOp → SortedSet α
  | subtract => a \ b
  | add => a ∪ b
  | intersect => a ∩ b

namespace Region

/-- Whether the set of a kind is there to be read. -/
def hasSet (r : Region) (k : Kind) : Bool := r.isComplete || decide (r.source = k)

/-- What keeps two regions from being combined. -/
def combineError? (t : Topology) (o : SetOperator) (a b : Region) : Option RegionError :=
  if o.target = .face ∧ !t.hasFaces then some (.unsupported o.text .faces)
  else if !a.hasSet o.target then some (.missingEntities a.name o.target)
  else if !b.hasSet o.target then some (.missingEntities b.name o.target)
  else none

/-- The combination of two regions before it is completed. -/
def merge (o : SetOperator) (a b : Region) : Region :=
  let name := a.name ++ o.text ++ b.name
  match o.target with
  | .vertex => ofVertices name (o.op.apply a.vertices b.vertices)
  | k => ofEntities name k (o.op.apply (a.entities k) (b.entities k))

def combine (t : Topology) (o : SetOperator) (a b : Region) : Except RegionError Region :=
  match combineError? t o a b with
  | some e => .error e
  | none => (merge o a b).complete t

end Region

end Subdomain

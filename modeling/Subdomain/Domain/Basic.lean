import Subdomain.Definition.Plan
import Subdomain.Evaluation.Run
import Subdomain.Domain.Event

/-!
# Domains

A domain is a mesh with its topology and the regions defined on it. A region is
created from one definition, next to the regions that exist, or in a pass over
many definitions in the order of their dependencies. A pass works on a collection
of its own, which takes the place of the domain's regions only if every
definition succeeds.
-/

namespace Subdomain

structure Domain where
  name : String
  mesh : Mesh
  topology : Topology
  regions : Collection
  topology_eq : topology = .ofMesh mesh := by rfl

/-- What a step leaves behind: the domain, the result and the events in their order. -/
structure Outcome (α : Type) where
  domain : Domain
  result : Except RegionError α
  events : List Event

namespace Domain

def ofMesh (name : String) (mesh : Mesh) : Domain where
  name := name
  mesh := mesh
  topology := .ofMesh mesh
  regions := .empty

def withRegions (d : Domain) (regions : Collection) : Domain := { d with regions }

def context (d : Domain) (regions : Collection) (functions : Functions) : Context where
  mesh := d.mesh
  topology := d.topology
  regions := regions
  functions := functions

/-- Drops all regions. -/
def reset (d : Domain) : Domain := d.withRegions d.regions.clear

/-- Evaluates a program next to the given regions and converts the result as defined. -/
def build (d : Domain) (regions : Collection) (functions : Functions) (name : String)
    (definition : Definition) (p : Selection.Program) : Except RegionError Region := do
  let r ← (d.context regions functions).run p
  let r := ((r.setName name).setDefinition definition.selection).setParent definition.parent
  (r.setKind d.topology definition.kind).toExcept

/-- The first region that a program reads, or else the parent, that does not exist. -/
def missing? (d : Domain) (parent : Option String) (p : Selection.Program) : Option String :=
  (p.references ++ parent.toList).find? (!d.regions.contains ·)

/-- Makes one region next to those that exist. -/
def single (d : Domain) (functions : Functions) (checkParent : Bool) (name : String)
    (definition : Definition) : Except RegionError Region := do
  if d.regions.contains name then throw (.duplicateRegion name)
  match Selection.parse definition.selection.toList with
  | .error e => throw (.syntaxError e)
  | .ok p =>
    match if checkParent then d.missing? definition.parent p else none with
    | some n => throw (.regionNotFound n)
    | none => d.build d.regions functions name definition p

/-- Creates one region. With `checkParent` the regions that its text reads and its parent are
looked up before anything is evaluated. -/
def createRegion (d : Domain) (functions : Functions) (checkParent : Bool) (name : String)
    (definition : Definition) : Outcome Region :=
  match d.single functions checkParent name definition with
  | .error e => ⟨d, .error (e.within name), []⟩
  | .ok r =>
    match d.regions.add r with
    | (.error e, regions) => ⟨d.withRegions regions, .error (e.within name), Event.ofRegion r⟩
    | (.ok _, regions) => ⟨d.withRegions regions, .ok r, Event.ofRegion r⟩

/-- How far a pass has come. -/
structure Progress where
  regions : Collection
  events : List Event
  error? : Option RegionError

/-- Makes the planned regions in turn, up to the first that fails. -/
def buildAll (d : Domain) (functions : Functions) (definitions : Definitions) (plan : Plan) :
    List String → Collection → Progress
  | [], regions => ⟨regions, [], none⟩
  | name :: names, regions =>
    match definitions.get? name, plan.programs.get? name with
    | some definition, some p =>
      match d.build regions functions name definition p with
      | .error e => ⟨regions, [], some (e.within name)⟩
      | .ok r =>
        let rest := buildAll d functions definitions plan names (regions.replace r).2
        { rest with events := Event.ofRegion r ++ rest.events }
    | _, _ => ⟨regions, [], some (.regionNotFound name)⟩

/-- Creates the regions of all definitions. -/
def createRegions (d : Domain) (functions : Functions) (definitions : Definitions)
    (options : PassOptions) : Outcome Collection :=
  let start := Event.creating d.name definitions.size
  let existing := if options.fresh then .empty else d.regions
  match definitions.plan existing options with
  | .error e => ⟨d, .error e, [start]⟩
  | .ok plan =>
    let pass := d.buildAll functions definitions plan plan.order existing
    let events := start :: .ordered plan.order :: pass.events
    match pass.error? with
    | some e => ⟨d, .error e, events⟩
    | none =>
      ⟨d.withRegions pass.regions, .ok pass.regions,
        events ++ [.created d.name pass.regions.size]⟩

end Domain

end Subdomain

import Subdomain.Region.Collection
import Subdomain.Selection.Parser
import Subdomain.Definition.Basic
import Subdomain.Definition.Levels

/-!
# Plans

A plan parses all definitions and orders them by the regions that they read.
Names that are neither defined nor exist are reported together; a definition
hides an existing region of the same name.
-/

namespace Subdomain

structure Plan where
  /-- The defined names, each behind those that it reads. -/
  order : List String
  programs : NameTable Selection.Program

namespace Definitions

/-- Parses definitions in turn, up to the first that fails. -/
def parseEntries : List (String × Definition) →
    Except RegionError (List (String × Selection.Program))
  | [] => .ok []
  | (name, d) :: rest =>
    match Selection.parse d.selection.toList with
    | .error e => .error (.inRegion name (.syntaxError e))
    | .ok p => do return (name, p) :: (← parseEntries rest)

theorem map_fst_parseEntries {es : List (String × Definition)}
    {ps : List (String × Selection.Program)} (h : parseEntries es = .ok ps) :
    ps.map (·.1) = es.map (·.1) := by
  induction es generalizing ps with
  | nil => cases h; rfl
  | cons e es ih =>
    obtain ⟨name, d⟩ := e
    simp only [parseEntries] at h
    split at h
    · cases h
    · cases hr : parseEntries es with
      | error e => simp [hr, bind, Except.bind] at h
      | ok qs =>
        simp only [hr, bind, Except.bind, pure, Except.pure, Except.ok.injEq] at h
        subst h
        simp [ih hr]

/-- The programs of all definitions. -/
def programs (ds : Definitions) : Except RegionError (NameTable Selection.Program) :=
  match h : parseEntries ds.entries with
  | .error e => .error e
  | .ok ps => .ok ⟨ps, (map_fst_parseEntries h).symm ▸ ds.nodup⟩

/-- The names that one definition uses and that `known` does not know: those that it reads, and
its parent if parents are checked. -/
def dangling (ds : Definitions) (known : String → Bool) (checkParents : Bool) (name : String)
    (p : Selection.Program) : List Dangling :=
  ((p.references.filter (!known ·)).map (⟨name, ·, false⟩)) ++
    if checkParents then
      ((((ds.get? name).bind (·.parent)).toList).filter (!known ·)).map (⟨name, ·, true⟩)
    else []

/-- The defined names that each definition reads. -/
def dependencies (ds : Definitions) (ps : NameTable Selection.Program) : Dependencies :=
  ps.mapValues fun _ p => p.references.filter ds.contains

/-- Plans a pass over definitions next to the regions that exist already. -/
def plan (ds : Definitions) (existing : Collection) (options : PassOptions) :
    Except RegionError Plan := do
  let programs ← ds.programs
  let known := fun n => ds.contains n || existing.contains n
  let unknown := programs.entries.flatMap fun (name, p) =>
    ds.dangling known options.checkParents name p
  if !unknown.isEmpty then throw (.undefinedParents unknown)
  match (ds.dependencies programs).levels with
  | .error names => throw (.dependencyCycle names)
  | .ok levels => return ⟨levels.flatten, programs⟩

end Definitions

end Subdomain

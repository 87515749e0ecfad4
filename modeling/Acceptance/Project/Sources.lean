import Acceptance.Emission.Names
import Acceptance.Plan.Build
import Acceptance.Registry.Load
import Acceptance.Script.Files
import Acceptance.Spec.Reader
/-!
The files that a project is written in: specs and the registry.
-/
namespace Acceptance.Project

open Script

/-- All spec files below a directory, in the order of their paths. -/
def specFiles (dir : Path) : Script (List Path) := do
  if ← isDir dir then
    let found ← ask (.listBelow dir)
    return sortPaths (found.filterMap fun (names, kind) =>
      if kind = .file ∧ fitsName "" ".gwt" (names.getLast?.getD "") then some (dir.below names)
      else none)
  else return []

/-- The name that a spec goes by in a project: its path from the root, if it is below the root. -/
def specName (root path : Path) : String := ((path.relativeTo? root).getD path).text

def specSlug (specsDir path : Path) : Except Misfit String :=
  match path.relativeTo? specsDir with
  | some p => .ok (Emission.moduleSlug p.text)
  | none => .error (.notInside path.text specsDir.text)

/-- A flaw of a whole file is told of its first line. -/
def atFirstLine (name : String) (flaw : SpecFlaw) : Problem :=
  .spec ⟨flaw, .int 1, .text "", .text name⟩

/-- The spec in the bytes of a file, or what is wrong with them. -/
def specOfBytes (name : String) (bytes : ByteArray) : Outcome Spec :=
  match textOf (Text.withoutMark bytes) with
  | .ok text => Spec.parse text (some name)
  | .error (.undecodable _) => .error (.problem (atFirstLine name .notUtf8))
  | .error f => .error f

def readSpec (path : Path) (name : String) : Script Spec := do
  match ← ask (.read path) with
  | .ok bytes => ofOutcome (specOfBytes name bytes)
  | .error (.os e) => stop (.problem (atFirstLine name (.unreadable e.cause.text)))
  | .error e => stop (.ofFile e)

/-- The plan of a spec file, with nothing resolved yet. -/
def readPlan (path : Path) (name : String) : Script Plan := do
  ofOutcome ((Plan.ofSpec (← readSpec path name)).mapError fun e => .problem (.plan e))

def readRegistry (path : Path) : Script Registry := do
  match ← ask (.read path) with
  | .ok bytes => ofOutcome (Registry.ofBytes bytes path.text)
  | .error (.os e) => stop (.problem (.registry ⟨path.text, none, .unreadable e.message⟩))
  | .error e => stop (.ofFile e)

end Acceptance.Project

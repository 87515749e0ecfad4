import Acceptance.Emission.Module
import Acceptance.Script.Files
/-!
The files that a compiled spec leaves, and the removal of those whose spec is gone. Only what bears
the mark of the compiler is removed.
-/
namespace Acceptance.Project

open Script

/-- The files of one spec. -/
structure Outputs where
  tests : Path
  manifest : Path
  plan : Path
  deriving DecidableEq, Repr

def Outputs.ofSlug (outputDir planDir : Path) (slug : String) : Outputs :=
  ⟨outputDir.child (Emission.moduleFile slug), outputDir.child (Emission.manifestFile slug),
    planDir.child (Emission.planFile slug)⟩

/-- A file that cannot be read is not one of ours. -/
def isGenerated (p : Path) : Script Bool := do
  match ← (readText p).attempt with
  | .ok text => return Text.occursIn Emission.generatedMarker text
  | .error (.path flaw) => stop (.path flaw)
  | .error _ => return false

def isPlanValue (v : Value) : Bool :=
  match v with
  | .map es =>
    match Value.lookup? "generated" es with
    | some (.text s) => s == Plan.marker
    | _ => false
  | _ => false

def isPlanFile (p : Path) : Script Bool := do
  match ← (readJson p).attempt with
  | .ok v => return isPlanValue v
  | .error (.misfit (.tooDeep inMap)) => stop (.misfit (.tooDeep inMap))
  | .error _ => return false

def readStored (p : Path) : Script Plan.Stored := do
  ofFit (Plan.ofValue (← readJson p))

/-- The file beside a test module that tells about it. -/
def manifestBeside (tests : Path) : Path :=
  tests.withName (String.ofList (tests.name.toList.take (tests.name.length - 3)) ++ ".json")

/-- Removes one generated test module, unless it is to be kept. -/
def pruneTest (keep : List String) (p : Path) : Script (List String) := do
  if keep.contains p.name then return []
  else if ← isGenerated p then do
    remove p
    removeIfThere (manifestBeside p)
    return [p.name]
  else return []

/-- Removes the generated test modules of a directory that are not to be kept, and gives their
names. -/
def pruneTests (dir : Path) (keep : List String) : Script (List String) := do
  if ← isDir dir then return (← (← childrenNamed "test_" ".py" dir).mapM (pruneTest keep)).flatten
  else return []

def prunePlan (live : List String) (p : Path) : Script Unit := do
  if live.contains p.name then return ()
  else if ← isPlanFile p then remove p
  else return ()

def prunePlans (dir : Path) (live : List String) : Script Unit := do
  if ← isDir dir then (← childrenNamed "" ".json" dir).forM (prunePlan live) else return ()

end Acceptance.Project

import Acceptance.Project.Outputs
import Acceptance.Project.Settings
import Acceptance.Project.Sources
import Acceptance.Report.Basic
import Acceptance.Resolution.Resolve
/-!
Compiling specs, one or all of a project.
-/
namespace Acceptance

/-- The scenarios that nothing keeps from being emitted. -/
def Plan.Document.ready (p : Plan) : Plan :=
  { p with scenarios := p.scenarios.filter fun s => (s.problems (.text p.source)).isEmpty }

def Plan.Document.problems (p : Plan) : List Problem :=
  p.scenarios.flatMap fun s => s.problems (.text p.source)

namespace Project

open Script

/-- What a resolved plan comes to: its report, and a test module if there is something to test. -/
structure Compiled where
  report : FileReport String Nat
  tests : Option Emission.TestModule

/-- The report of a resolved plan before anything is emitted. -/
def planReport (plan : Plan) : FileReport String Nat :=
  let parsed := plan.scenarios.length
  let resolved := plan.ready.scenarios.length
  ⟨plan.source, parsed, resolved, 0, parsed - resolved, none, plan.problems⟩

def emitted (r : Registry) (slug : String) (plan : Plan) : Outcome Compiled :=
  let report := planReport plan
  let ready := plan.ready.stored.scenarios
  if ready.isEmpty then .ok ⟨report, none⟩
  else do
    let tests ← Emission.testModule r plan.stored slug ready
    return ⟨{ report with emitted := tests.tests.length, output := some tests.file }, some tests⟩

def testFiles (outputs : Outputs) (tests : Option Emission.TestModule) : List (Path × String) :=
  match tests with
  | none => []
  | some m => [(outputs.tests, m.code), (outputs.manifest, m.manifestText)]

/-- Removes what is left of a spec that can no longer be read. -/
def dropOutputs (outputs : Outputs) : Script Unit := do
  let stale := if ← isPlanFile outputs.plan then [outputs.plan] else []
  writeGroup [] ([outputs.tests, outputs.manifest] ++ stale)

/-- Resolves a plan and writes its files. Without emission only the plan itself is written. -/
def writeOutputs (r : Registry) (emit : Bool) (slug : String) (outputs : Outputs) (plan : Plan) :
    Script (FileReport String Nat) := do
  let plan ← ofFit (plan.resolve r)
  let text ← ofFit (Plan.write plan.stored)
  if emit then
    let compiled ← ofOutcome (emitted r slug plan)
    writeGroup ((outputs.plan, text) :: testFiles outputs compiled.tests)
      [outputs.tests, outputs.manifest]
    return compiled.report
  else
    writeGroup [(outputs.plan, text)] []
    return planReport plan

/-- Compiles one spec. What is wrong with it is told in its report. -/
def compileSpec (root : Path) (settings : Settings) (r : Registry) (emit : Bool) (path : Path) :
    Script (FileReport String Nat) := do
  let specsDir ← ofFit (Settings.place root settings.specsDir)
  let name := specName root path
  let slug ← ofFit (specSlug specsDir path)
  let outputDir ← ofFit (Settings.place root settings.outputDir)
  let planDir ← ofFit (Settings.place root settings.planDir)
  let outputs := Outputs.ofSlug outputDir planDir slug
  match ← (readPlan path name).attempt with
  | .ok plan => writeOutputs r emit slug outputs plan
  | .error (.problem p) => do
    if emit then dropOutputs outputs
    return { FileReport.blank name with errors := [p] }
  | .error f => stop f

/-- A parsed spec: its report, and its plan if it has one. -/
structure Parsed where
  report : FileReport String Nat
  plan : Option Plan

def parseSpec (root specsDir : Path) (settings : Settings) (path : Path) : Script Parsed := do
  let name := specName root path
  let slug ← ofFit (specSlug specsDir path)
  match ← (readPlan path name).attempt with
  | .ok plan => do
    let text ← ofFit (Plan.write plan.stored)
    let planDir ← ofFit (Settings.place root settings.planDir)
    let file := planDir.child (Emission.planFile slug)
    writeGroup [(file, text)] []
    let report := FileReport.blank name
    return ⟨{ report with parsed := plan.scenarios.length, output := some file.name }, some plan⟩
  | .error (.problem p) => return ⟨{ FileReport.blank name with errors := [p] }, none⟩
  | .error f => stop f

/-- Writes the plans of all specs with nothing resolved. -/
def parse (root : Path) (settings : Settings) : Script (List Parsed) := do
  let specsDir ← ofFit (Settings.place root settings.specsDir)
  (← specFiles specsDir).mapM (parseSpec root specsDir settings)

/-- A spec file with the slug that its outputs are named for. -/
structure Claimant where
  path : Path
  slug : String
  deriving DecidableEq, Repr

/-- The first of the specs to ask for a slug owns it. -/
def owners : List Claimant → List Claimant → List Claimant
  | owned, [] => owned
  | owned, c :: cs =>
    if owned.any (·.slug = c.slug) then owners owned cs else owners (owned ++ [c]) cs

/-- The report of a spec whose slug is owned by another. -/
def collision? (root : Path) (owned : List Claimant) (c : Claimant) :
    Option (FileReport String Nat) :=
  match owned.find? (·.slug = c.slug) with
  | none => none
  | some owner =>
    if owner = c then none
    else
      let name := specName root c.path
      some { FileReport.blank name with
        errors := [.sharedOutput name c.slug (specName root owner.path)] }

def claimants (specsDir : Path) (paths : List Path) : Except Misfit (List Claimant) :=
  paths.mapM fun path => return ⟨path, ← specSlug specsDir path⟩

/-- One after the other, up to the first fault. -/
def inTurn (each : Path → Script (FileReport String Nat)) (paths : List Path) :
    Script (List (FileReport String Nat)) :=
  paths.mapM each

/-- All of them, whatever becomes of the others. The first fault is met at the end. -/
def sideBySide (each : Path → Script (FileReport String Nat)) (paths : List Path) :
    Script (List (FileReport String Nat)) := do
  ofOutcome ((← paths.mapM fun p => (each p).attempt).mapM id)

def severalWorkers (settings : Settings) : Except Misfit Bool := do
  return (← settings.workers.compareInt 1) = some .gt

/-- Compiles the specs of a project whose registry is at hand. -/
def compileAll (root : Path) (settings : Settings) (r : Registry) (emit : Bool) :
    Script (Report String Nat) := do
  let specsDir ← ofFit (Settings.place root settings.specsDir)
  let specs ← ofFit (claimants specsDir (← specFiles specsDir))
  let owned := owners [] specs
  let each := compileSpec root settings r emit
  let together ← ofFit (severalWorkers settings)
  let paths := owned.map (·.path)
  let compiled ← if together && paths.length > 1 then sideBySide each paths else inTurn each paths
  let files := compiled ++ specs.filterMap (collision? root owned)
  if emit then
    let outputDir ← ofFit (Settings.place root settings.outputDir)
    let pruned ← pruneTests outputDir (files.filterMap (·.output))
    let planDir ← ofFit (Settings.place root settings.planDir)
    prunePlans planDir (owned.map fun c => Emission.planFile c.slug)
    return { files, pruned }
  else return { files }

/-- Compiles all specs of a project. Without a good registry there is nothing to do. -/
def compile (root : Path) (settings : Settings) (emit : Bool) : Script (Report String Nat) := do
  let path ← ofFit (Settings.place root settings.registry)
  match ← (readRegistry path).attempt with
  | .ok r => compileAll root settings r emit
  | .error (.problem p) => return { errors := [p] }
  | .error f => stop f

end Project
end Acceptance

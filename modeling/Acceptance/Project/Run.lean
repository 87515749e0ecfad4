import Acceptance.Project.Compile
import Acceptance.Report.Junit
/-!
Running the generated tests and tracing their results back to the specs.
-/
namespace Acceptance.Project

open Script

/-- The key of a manifest: the module that it says it tells about, or else the one of its name. -/
def manifestKey (p : Path) (manifest : Value) : Except Misfit Value := do
  let stem := String.ofList (p.name.toList.take (p.name.length - 5))
  match ← manifest.memberD "module" (.text s!"{stem}.py") with
  | .list _ => .error .wrongKind
  | .map _ => .error .wrongKind
  | key => return key

/-- The manifests of a directory by their keys. Files that cannot be read, or hold no JSON, are
passed over. -/
def addManifest (found : Manifests) (p : Path) : Script Manifests := do
  match ← (readJson p).attempt with
  | .ok manifest => return Value.put (← ofFit (manifestKey p manifest)) manifest found
  | .error (.os _) => return found
  | .error (.json _) => return found
  | .error f => stop f

def loadManifests (dir : Path) : Script Manifests := do
  if ← isDir dir then (← childrenNamed "test_" ".json" dir).foldlM addManifest [] else return []

/-- The test modules of a directory. -/
def testModules (dir : Path) : Script (List Path) := do
  if ← isDir dir then childrenNamed "test_" ".py" dir else return []

/-- The report of a run that has ended. -/
def runReport (outputDir : Path) (timeout : Value) : Ending → Script (TestRun String)
  | .timedOut => return { errors := [s!"Test execution timed out after {timeout.display}s"] }
  | .missing => return { errors := ["Python interpreter not found"] }
  | .exited none code output errors =>
    return { errors := [s!"pytest produced no report (exit code {code})"],
             output := output ++ errors, exitCode := some code }
  | .exited (some xml) code output errors => do
    let results ← ofOutcome (resultsOfXml (String.ofList (Text.unifyBreaks xml.toList)))
    let manifests ← loadManifests outputDir
    let results ← ofFit (results.mapM (·.attach manifests))
    return { results, output := output ++ errors, exitCode := some code }

/-- Runs the tests of a directory, or only the selected ones, in the order given. -/
def runTests (outputDir root : Path) (timeout : Value) (select : List String) :
    Script (TestRun String) := do
  let modules ← testModules outputDir
  if modules.isEmpty then
    return { output := "No generated tests found. Run `gwtc generate` first." }
  else
    let targets :=
      if select.isEmpty then modules else select.map fun s => outputDir.join (.ofText s)
    let ending ← ask (.launch ⟨targets.map (·.text), outputDir.text, root.text, timeout⟩)
    runReport outputDir timeout ending

def isRegistryProblem : Problem → Bool
  | .registry _ => true
  | _ => false

/-- Compiles a project and runs its tests. -/
def run (root : Path) (settings : Settings) (select : List String) :
    Script (Report String Nat) := do
  let report ← compile root settings true
  if report.errors.any isRegistryProblem then return report
  else
    let outputDir ← ofFit (Settings.place root settings.outputDir)
    return { report with run := some (← runTests outputDir root settings.timeout select) }

end Acceptance.Project

import Acceptance.Project.Run
/-!
Tools for other programs: to compile one spec, to check a project and to run it. Each gives a record
that says under `ok` whether all is well.
-/
namespace Acceptance.Tools

open Script

/-- A record with a further field. -/
def withOk (v : Value) (ok : Bool) : Value :=
  match v with
  | .map es => .map (es ++ [(.text "ok", .boolean ok)])
  | _ => v

def refused (error : Value) : Value := .record [("ok", .boolean false), ("errors", .list [error])]

def refusedPath (input : String) (settings : Settings) : Value :=
  let message := s!"{input} is not a spec file under " ++ settings.specsDir.phrase ++ "/"
  refused (.record [("stage", .text Stage.pipeline.name), ("message", .ofPhrase message)])

/-- Is the path that of a file, and below the directory of the specs as it is written? -/
def isSpec (root : Path) (settings : Settings) (source : Path) : Script Bool := do
  if ← isFile source then
    return (source.relativeTo? (← ofFit (Settings.place root settings.specsDir))).isSome
  else return false

/-- The path without `..` in it. To find it the machine has to be asked. -/
def resolve (p : Path) : Script Path :=
  match p.flaw? with
  | some flaw => stop (.path flaw)
  | none => return p.resolved

def compile (root : Path) (input : String) : Script Value := do
  let settings ← Settings.loadOrRefuse root
  let source ← resolve (root.join (.ofText input))
  if ← isSpec root settings source then
    let registry ← ofFit (Settings.place root settings.registry)
    match ← (Project.readRegistry registry).attempt with
    | .ok r => do
      let report ← Project.compileSpec root settings r true source
      return withOk report.record report.errors.isEmpty
    | .error (.problem p) => return refused p.record
    | .error f => stop f
  else return refusedPath input settings

def check (root : Path) : Script Value := do
  let report ← Project.compile root (← Settings.loadOrRefuse root) false
  let violations := report.problems.map (·.record)
  return .record [("ok", .boolean violations.isEmpty), ("count", .int violations.length),
    ("violations", .list violations), ("files", .list (report.files.map (·.record)))]

def run (root : Path) (select : List String) : Script Value := do
  let report ← Project.run root (← Settings.loadOrRefuse root) select
  return withOk report.record report.isGreen

end Acceptance.Tools

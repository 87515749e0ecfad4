import Acceptance.Command.Arguments
import Acceptance.Project.Run
import Acceptance.Spec.Render
/-!
What the commands do and tell. The result of each is its exit code.
-/
namespace Acceptance

/-- Is the fault one of the settings as they are written, and not of the machine or of the shape of
the data? -/
def Fault.isOfContent : Fault → Bool
  | .notInitialized => true
  | .undecodable _ => true
  | .json _ => true
  | .misfit m =>
    match m with
    | .notANumber => true
    | .notAnInteger .. => true
    | .integerTooLong _ => true
    | .unsupportedFramework _ => true
    | .tooDeep _ => true
    | _ => false
  | _ => false

namespace Command

open Script

def registrySkeleton : String := String.intercalate "\n" [
  "# Statement templates bound to domain operations.",
  "# `module` is the import path of the module that implements the operations.",
  "module: acceptance.operations",
  "# setup: reset_world",
  "# teardown: reset_world",
  "templates: []",
  "#  - kind: GIVEN",
  "#    pattern: no registered users",
  "#    operation: clear_users",
  "#  - kind: WHEN",
  "#    pattern: a user registers with email \"\x7bemail\x7d\" and password \"\x7bpassword\x7d\"",
  "#    operation: register_user",
  "#  - kind: THEN",
  "#    pattern: there is \x7bcount\x7d registered user",
  "#    operation: count_users",
  "#    params: \x7bcount: number\x7d",
  "#    expected: count",
  ""]

/-- Goes on with the settings of the project, or tells why it cannot. -/
def withSettings (root : Path) (next : Settings → Script Nat) : Script Nat := do
  match ← (Settings.loadOrRefuse root).attempt with
  | .ok settings => next settings
  | .error f =>
    if f.isOfContent then
      say ("Error: " ++ f.message?.getD "")
      return 1
    else stop f

def place (root : Path) (setting : Value) : Script Path := ofFit (Settings.place root setting)

def writeSkeleton (path : Path) : Script Unit := do
  if ← isThere path then return ()
  else
    makeDirs path.parent
    writeText path registrySkeleton

def doInit (root : Path) : Script Nat := do
  let already ← Settings.areThere root
  if already then
    say "Warning: Project is already initialized. Keeping existing configuration."
  let settings ← if already then Settings.load root else pure {}
  let specsDir ← place root settings.specsDir
  makeDirs specsDir
  let file ← settings.save root
  let registry ← place root settings.registry
  writeSkeleton registry
  if already then say "Existing spec files and registry preserved."
  else
    say "Initialized gwt-compiler project."
    say ("  Created: " ++ (Settings.home root).phrase ++ "/")
    say ("  Created: " ++ specsDir.phrase ++ "/")
    say ("  Registry: " ++ registry.phrase)
    say ("  Config:  " ++ file.phrase)
  return 0

def dropPeriods (s : String) : String :=
  String.ofList (s.toList.reverse.dropWhile (· == '.')).reverse

/-- The text of a new spec. -/
def specDraft (description : String) : String :=
  String.intercalate "\n" (banner (dropPeriods description ++ ".") ++
    ["GIVEN <precondition>.", "WHEN <action>.", "THEN <expected result>.", ""])

def specFileName (description : String) : String :=
  let slug := Text.hyphenated description
  if slug = "" then "spec.gwt" else s!"{slug}.gwt"

def doNew (root : Path) (description : String) (settings : Settings) : Script Nat := do
  let specsDir ← place root settings.specsDir
  makeDirs specsDir
  let file := specsDir.child (specFileName description)
  if ← isThere file then say ("Warning: " ++ file.phrase ++ " already exists. Skipping.")
  else
    writeText file (specDraft description)
    say ("Created: " ++ file.phrase)
  return 0

def parameterLine (p : Parameter) : String :=
  s!"      {p.name}: {(Value.ofLiteral p.literal).literal} ({p.literal.type.name})"

def scenarioLines (s : Plan.DraftScenario Nat) : List String :=
  let title := if s.title = "" then "(untitled)" else s.title
  [s!"\n  Scenario: {title}", s!"  Id: {s.id}  Line: {s.line}"] ++
    s.steps.flatMap fun step =>
      s!"    {step.kind.keyword} {step.statement}." :: step.parameters.map parameterLine

def planLines (p : Plan) : List String :=
  [s!"\n{p.source}"] ++ (if p.description = "" then [] else [s!"  {p.description}"]) ++
    p.scenarios.flatMap scenarioLines

def parsedLines (inspect : Bool) (p : Project.Parsed) : List Phrase :=
  match p.report.errors, p.plan with
  | e :: _, _ => ["Error: " ++ e.message]
  | [], some plan => if inspect then (planLines plan).map .ofText else []
  | [], none => []

def tell (lines : List Phrase) : Script Unit := lines.forM say

def exitWith (problems : List Problem) : Nat := if problems.isEmpty then 0 else 2

def doParse (root : Path) (inspect : Bool) (settings : Settings) : Script Nat := do
  let parsed ← Project.parse root settings
  if parsed.isEmpty then
    say "No spec files found."
    return 0
  else
    let count := parsed.foldl (fun n p => n + p.report.parsed) 0
    say s!"Parsed {count} scenario(s) from {parsed.length} file(s)."
    tell (parsed.flatMap (parsedLines inspect))
    return exitWith (parsed.flatMap (·.report.errors))

def fileLines (f : FileReport String Nat) : List Phrase :=
  s!"{f.source}: {f.parsed} parsed, {f.resolved} resolved, {f.unresolved} unresolved" ::
    f.errors.map fun e => s!"  [{e.stage.name}] " ++ e.message

def compileLines (r : Report String Nat) : List Phrase :=
  let errors := r.errors.map fun e => Phrase.ofText "Error: " ++ e.message
  let idle : List Phrase :=
    if r.files.isEmpty && r.errors.isEmpty then ["No spec files found."] else []
  errors ++ idle ++ r.files.flatMap fileLines

def doResolve (root : Path) (settings : Settings) : Script Nat := do
  let report ← Project.compile root settings false
  tell (compileLines report)
  if report.problems.isEmpty then say "All statements resolved."
  return exitWith report.problems

def doGenerate (root : Path) (settings : Settings) : Script Nat := do
  let report ← Project.compile root settings true
  tell (compileLines report)
  let outputs := (report.files.filterMap (·.output)).mergeSort fun a b => !decide (b < a)
  let dir ← place root settings.outputDir
  say (s!"Generated {outputs.length} test module(s) in " ++ dir.phrase ++ "/")
  tell (outputs.map fun name => s!"  {name}")
  tell (report.pruned.map fun name => s!"  removed stale {name}")
  return exitWith report.problems

def failureLines (f : TestFailure) : List Phrase :=
  ("  " ++ f.test.phrase) ::
    if f.statement.isTruthy then ["    " ++ f.source.phrase ++ ": " ++ f.statement.phrase] else []

def runLines (r : TestRun String) : List Phrase :=
  let output : List Phrase := if r.output = "" then [] else [r.output]
  let failures : List Phrase :=
    if r.failures.isEmpty then [] else "\nFailing tests:" :: r.failures.flatMap failureLines
  output ++ [r.summary] ++ failures

def doTest (root : Path) (select : List String) (settings : Settings) : Script Nat := do
  let dir ← place root settings.outputDir
  let result ← Project.runTests dir root settings.timeout select
  tell (runLines result)
  return if result.isGreen then 0 else 1

def doRun (root : Path) (json : Bool) (select : List String) (settings : Settings) :
    Script Nat := do
  let report ← Project.run root settings select
  say (if json then ↑(Json.sortedLayout.write report.record) else report.summary)
  return report.exitCode

/-- How many scenarios a spec has; nothing if it cannot be read. -/
def countScenarios (path : Path) : Script (Option Nat) := do
  match ← (Project.readSpec path path.text).attempt with
  | .ok spec => return some spec.scenarios.length
  | .error (.problem _) => return none
  | .error f => stop f

def registryLine (path : Path) : Script Phrase := do
  match ← (Project.readRegistry path).attempt with
  | .ok r => return s!"Registry: {r.templates.length} template(s) for module {r.moduleName}"
  | .error (.problem p) => return "Registry: invalid (" ++ p.message ++ ")"
  | .error f => stop f

def doStatus (root : Path) (settings : Settings) : Script Nat := do
  let specs ← Project.specFiles (← place root settings.specsDir)
  let counts ← specs.mapM countScenarios
  say s!"Spec files: {specs.length}"
  let scenarios := counts.foldl (fun n count => n + count.getD 0) 0
  say s!"Scenarios: {scenarios}"
  let broken := counts.countP (·.isNone)
  if broken > 0 then say s!"Spec files with syntax errors: {broken}"
  say (← registryLine (← place root settings.registry))
  let planDir ← place root settings.planDir
  let plans ← if ← isDir planDir then childrenNamed "" ".json" planDir else pure []
  say s!"IR documents: {plans.length}"
  let tests ← Project.testModules (← place root settings.outputDir)
  let shown := if tests.isEmpty then "none" else toString tests.length
  say s!"Generated test modules: {shown}"
  return 0

def perform (root : Path) : Command → Script Nat
  | .help => do
    say "Usage: gwtc [OPTIONS] COMMAND [ARGS]..."
    return 0
  | .version => do
    say "gwtc, version 0.1.0"
    return 0
  | .init => doInit root
  | .new description => withSettings root (doNew root description)
  | .parse inspect => withSettings root (doParse root inspect)
  | .resolve => withSettings root (doResolve root)
  | .generate => withSettings root (doGenerate root)
  | .test select => withSettings root (doTest root select)
  | .run json select => withSettings root (doRun root json select)
  | .status => do
    if ← Settings.areThere root then withSettings root (doStatus root)
    else
      say "Project is not initialized. Run `gwtc init`."
      return 0

/-- Carries out a command line. One that cannot be understood has exit code 2. -/
def performWords (root : Path) (words : List String) : Script Nat :=
  match read words with
  | some c => c.perform root
  | none => return 2

end Command
end Acceptance

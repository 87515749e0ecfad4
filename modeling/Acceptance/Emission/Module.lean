import Acceptance.Emission.Code
/-!
Test modules: the tests of the scenarios of one spec, and the manifest that tells where in the
module each step is.
-/
namespace Acceptance.Emission

open Plan

def generatedMarker : String := "DO NOT EDIT - this file is regenerated from GWT specs."

structure TestModule where
  source : String
  file : String
  manifestName : String
  code : String
  tests : List TestCode
  manifest : Value

def TestModule.manifestText (m : TestModule) : String := Json.sortedLayout.write m.manifest ++ "\n"

def fixtureLines (r : Registry) : List String :=
  if usesFixture r then
    ["@pytest.fixture", s!"def {fixtureName}():"] ++
      (r.setup.map fun op => s!"    ops.{op}()").toList ++ ["    yield"] ++
      (r.teardown.map fun op => s!"    ops.{op}()").toList ++ ["", ""]
  else []

/-- The lines before the tests. -/
def moduleHead (r : Registry) (source : String) (description : Option String) : List String :=
  [s!"\"\"\"Generated acceptance tests from {docText source}.", "", generatedMarker] ++
    (description.map fun d => ["", docText d]).getD [] ++
    ["\"\"\"", "", "import pytest", "", s!"import {r.moduleName} as ops", "", ""] ++
    fixtureLines r

/-- A test with the number of module lines before it and the spec line of its scenario. -/
structure Placed where
  test : TestCode
  offset : Nat
  line : Value

def Placed.lines (p : Placed) : List String := p.test.lines ++ ["", ""]

def Placed.entry (p : Placed) : String × Value :=
  (p.test.name, .record [("scenario_id", p.test.scenarioId), ("title", p.test.title),
    ("line", p.line), ("steps", .list (p.test.spans.map fun s => (s.shift p.offset).record))])

/-- The tests of scenarios, placed one after the other. -/
def placedFrom (r : Registry) :
    List String → Nat → List StoredScenario → Outcome (List Placed)
  | _, _, [] => .ok []
  | taken, offset, s :: rest => do
    let test ← testCode r taken s
    let placed : Placed := ⟨test, offset, s.line⟩
    return placed :: (← placedFrom r (test.name :: taken) (offset + placed.lines.length) rest)

def manifestOf (file : String) (source : Value) (tests : List Placed) : Value :=
  .record [("generated", .text generatedMarker), ("module", .text file), ("spec_file", source),
    ("tests", .record (tests.map (·.entry)))]

/-- The module of some scenarios of a plan. -/
def testModule (r : Registry) (plan : Stored) (slug : String) (scenarios : List StoredScenario) :
    Outcome TestModule := do
  let source ← Value.orFault (textOf plan.source)
  let description ←
    if plan.description.isTruthy then some <$> Value.orFault (textOf plan.description)
    else pure none
  let head := moduleHead r source description
  let tests ← placedFrom r [] head.length scenarios
  let lines := head ++ tests.flatMap (·.lines)
  let code := String.ofList (Text.trimEnd (String.intercalate "\n" lines).toList) ++ "\n"
  let file := moduleFile slug
  return ⟨source, file, manifestFile slug, code, tests.map (·.test),
    manifestOf file plan.source tests⟩

end Acceptance.Emission

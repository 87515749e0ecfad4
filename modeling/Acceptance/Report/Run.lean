import Acceptance.Problem
/-!
The report of a test run. A run is green only if there are tests, all of them passed, and the run
itself met no error.
-/
namespace Acceptance

inductive TestStatus
  | passed
  | failed
  | error
  | skipped
  deriving DecidableEq, Repr

namespace TestStatus

def all : List TestStatus := [.passed, .failed, .error, .skipped]

def name : TestStatus → String
  | .passed => "passed"
  | .failed => "failed"
  | .error => "error"
  | .skipped => "skipped"

def ofName? (s : String) : Option TestStatus := all.find? (·.name == s)

def isFailure (t : TestStatus) : Bool := t == .failed || t == .error

end TestStatus

/-- The result of one test, traced back to its scenario as far as its manifest tells, which may hold
any data. `τ` is the type of its texts. -/
structure TestResult (τ : Type) where
  name : τ
  status : TestStatus
  file : τ
  source : Value := .text ""
  scenarioId : Value := .text ""
  title : Value := .text ""
  statement : Value := .text ""
  message : τ

variable {τ : Type} [ToValue τ]

namespace TestResult

def record (r : TestResult τ) : Value :=
  .record [("name", toValue r.name), ("status", .text r.status.name), ("module", toValue r.file),
    ("spec_file", r.source), ("scenario_id", r.scenarioId), ("title", r.title),
    ("statement", r.statement), ("message", toValue r.message)]

def failure? (r : TestResult τ) : Option TestFailure :=
  if r.status.isFailure then
    let told := toValue r.message
    let message := if told.isTruthy then told else .text r.status.name
    some ⟨toValue r.name, message, r.source, r.scenarioId, r.statement⟩
  else none

end TestResult

structure TestRun (τ : Type) where
  results : List (TestResult τ) := []
  errors : List τ := []
  output : String := ""
  exitCode : Option Int := none

namespace TestRun

def count (r : TestRun τ) (s : TestStatus) : Nat := r.results.countP (·.status = s)

def isGreen (r : TestRun τ) : Bool :=
  r.errors.isEmpty && !r.results.isEmpty && r.results.all (·.status = .passed)

def failures (r : TestRun τ) : List TestFailure := r.results.filterMap (·.failure?)

def summary (r : TestRun τ) : Phrase :=
  let verdict := if r.isGreen then "GREEN" else "RED"
  let counts := s!"{r.count .passed} passed, {r.count .failed} failed, " ++
    s!"{r.count .error} error(s), {r.count .skipped} skipped"
  let idle : List Phrase :=
    if r.results.isEmpty && r.errors.isEmpty then ["No tests ran; a run without tests is red."]
    else []
  let errors := r.errors.map fun e => "Runner error: " ++ (toValue e).phrase
  Phrase.join "\n" (s!"Tests: {counts} -> {verdict}" :: (idle ++ errors))

def record (r : TestRun τ) : Value :=
  .record [("status", .text (if r.isGreen then "green" else "red")),
    ("passed", .int (r.count .passed)), ("failed", .int (r.count .failed)),
    ("errors", .int (r.count .error)), ("skipped", .int (r.count .skipped)),
    ("total", .int r.results.length), ("runner_errors", .list (r.errors.map toValue)),
    ("tests", .list (r.results.map (·.record)))]

end TestRun
end Acceptance

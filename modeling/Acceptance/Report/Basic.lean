import Acceptance.Fault
import Acceptance.Report.Run
/-!
Reports: what became of each spec file, and of the test run if there was one.
-/
namespace Acceptance

/-- What became of one spec file. `τ` is the type of names and `ν` that of counts. -/
structure FileReport (τ ν : Type) where
  source : τ
  parsed : ν
  resolved : ν
  emitted : ν
  unresolved : ν
  output : Option τ
  errors : List Problem

variable {τ ν : Type} [ToValue τ] [ToValue ν]

namespace FileReport

/-- The report of a file that nothing has been done with. -/
def blank (source : String) : FileReport String Nat := ⟨source, 0, 0, 0, 0, none, []⟩

def record (f : FileReport τ ν) : Value :=
  .record [("spec_file", toValue f.source), ("parsed", toValue f.parsed),
    ("resolved", toValue f.resolved), ("emitted", toValue f.emitted),
    ("unresolved", toValue f.unresolved), ("output", .orNull (f.output.map toValue)),
    ("errors", .list (f.errors.map (·.record)))]

def lines (f : FileReport τ ν) : List Phrase :=
  let shown := fun (n : ν) => (toValue n).phrase
  ((toValue f.source).phrase ++ ": " ++ shown f.parsed ++ " parsed, " ++ shown f.resolved ++
    " resolved, " ++ shown f.emitted ++ " emitted, " ++ shown f.unresolved ++ " unresolved") ::
    f.errors.map fun e => s!"  [{e.stage.name}] " ++ e.message

end FileReport

structure Report (τ ν : Type) where
  files : List (FileReport τ ν) := []
  errors : List Problem := []
  run : Option (TestRun τ) := none
  pruned : List τ := []

namespace Report

/-- All errors but those of tests. -/
def problems (r : Report τ ν) : List Problem := r.errors ++ r.files.flatMap (·.errors)

def exitCode (r : Report τ ν) : Nat :=
  if !r.problems.isEmpty then 2
  else
    match r.run with
    | some run => if run.isGreen then 0 else 1
    | none => 0

def isGreen (r : Report τ ν) : Bool := r.exitCode = 0

/-- The number of problems of each stage. Tests are only counted if there are some. -/
def stageCounts (r : Report τ ν) : List (Stage × Nat) :=
  let count := fun s => (s, r.problems.countP (·.stage = s))
  [.registry, .parse, .plan, .resolve, .emit, .pipeline].map count ++
    [count .test].filter (·.2 > 0)

def summary (r : Report τ ν) : Phrase :=
  let counts := r.stageCounts.map fun (s, n) => s!"{s.name} {n}"
  let tests : List Phrase := match r.run with
    | none => []
    | some run =>
      run.summary :: run.failures.map fun f => "  [test] " ++ f.report
  let errors : List Phrase := r.errors.map fun e => s!"Error [{e.stage.name}]: " ++ e.message
  let total : Phrase := s!"Pipeline errors: {Value.commaJoin counts}"
  let verdict : Phrase := if r.isGreen then "Result: GREEN" else "Result: RED"
  Phrase.join "\n" (errors ++ r.files.flatMap (·.lines) ++ [total] ++ tests ++ [verdict])

def record (r : Report τ ν) : Value :=
  .record [("status", .text (if r.isGreen then "green" else "red")),
    ("exit_code", .int r.exitCode),
    ("pipeline_errors", .record (r.stageCounts.map fun (s, n) => (s.name, .int n))),
    ("errors", .list (r.errors.map (·.record))),
    ("files", .list (r.files.map (·.record))), ("pruned", .list (r.pruned.map toValue)),
    ("run", .orNull (r.run.map (·.record)))]

end Report
end Acceptance

import Acceptance.Digest.Sha256
import Acceptance.Fault
import Acceptance.Plan.Basic
import Acceptance.Spec.Basic
import Acceptance.Text.Spacing
/-!
Making a plan from a spec: statements with single spaces, all of them still pending, and an id for
each scenario that depends on its statements alone.
-/
namespace Acceptance.Plan

/-- The text that a scenario's id is made from. -/
def idText (statements : List (Kind × String)) : String :=
  String.intercalate "\n" (statements.map fun (k, s) => s!"{k.keyword} {s}")

/-- The first sixteen digits of a digest of the statements. -/
def scenarioId (statements : List (Kind × String)) : String :=
  String.ofList ((Digest.sha256Hex (idText statements)).toList.take 16)

variable {τ ν : Type}

/-- The first step that may not follow the step before it. -/
def outOfOrder? [ToValue ν] : List (Spec.Step ν) → Option PlanFlaw
  | s :: t :: rest =>
    if t.kind.mayFollow s.kind then outOfOrder? (t :: rest)
    else some (.outOfOrder (toValue t.line) t.kind s.kind)
  | _ => none

/-- What is wrong with a scenario that no text gives. -/
def flaw? [ToValue ν] (s : Spec.Scenario τ ν) : Option PlanFlaw :=
  if s.steps.isEmpty then some (.noSteps (toValue s.line))
  else
    match outOfOrder? s.steps with
    | some flaw => some flaw
    | none =>
      if s.count .action = 0 ∨ s.count .outcome = 0 then some (.incomplete (toValue s.line))
      else none

def ofStep (s : Spec.Step ν) : DraftStep ν :=
  ⟨s.kind, Text.normalize s.text, s.parameters, .unresolved .pending "" [], s.line⟩

def ofScenario (s : Spec.Scenario String ν) : DraftScenario ν :=
  let steps := s.steps.map ofStep
  ⟨scenarioId (steps.map fun t => (t.kind, t.statement)), Text.normalize s.title, steps, s.line⟩

def ofSpec (s : Spec) : Except PlanError Plan :=
  if s.scenarios.isEmpty then .error ⟨.text s.path, .noScenarios⟩
  else
    match s.scenarios.findSome? flaw? with
    | some flaw => .error ⟨.text s.path, flaw⟩
    | none => .ok ⟨s.path, Text.normalize s.description, s.scenarios.map ofScenario⟩

end Acceptance.Plan

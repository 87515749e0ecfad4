import Acceptance.Fault
import Acceptance.Resolution.Coerce
import Acceptance.Text.Similarity
import Acceptance.Text.Spacing
/-!
Binding statements to templates. One template that matches resolves a statement; several make it
ambiguous, and their order in the registry never decides between them.
-/
namespace Acceptance

namespace Template

/-- The binding made from what the holes captured. -/
def bind (t : Template) (captured : List (String × String)) :
    Except CoerceError (Binding String Parameter) := do
  let parameters ← (t.holes.zip captured).mapM fun ((name, type), (_, text)) =>
    coerce name text type (Registry.quotesHole t.pattern.visible name)
  match t.expected with
  | none => return ⟨t.operation, parameters, t.constantParameter, t.comparison, t.passResult⟩
  | some name =>
    return ⟨t.operation, parameters.filter (·.name ≠ name), parameters.find? (·.name = name),
      t.comparison, t.passResult⟩

/-- What the holes of a template capture from a statement. A pattern that is no text matches
none. -/
def captures? (t : Template) (statement : String) : Option (List (String × String)) :=
  t.pattern.text?.bind fun pattern => Registry.captures? pattern statement

/-- What comes of holding a template against a statement. -/
inductive Attempt
  | apart
  | bound (b : Binding String Parameter)
  | mismatch (m : TypeMismatch)

def attempt (t : Template) (statement : String) : Except Misfit Attempt :=
  match t.captures? statement with
  | none => .ok .apart
  | some captured =>
    match t.bind captured with
    | .ok b => .ok (.bound b)
    | .error (.mismatch m) => .ok (.mismatch m)
    | .error (.misfit m) => .error m

def Attempt.binding? : Attempt → Option (Binding String Parameter)
  | .bound b => some b
  | _ => none

def Attempt.mismatch? : Attempt → Option TypeMismatch
  | .mismatch m => some m
  | _ => none

end Template

namespace Resolution

def mismatched (ms : List (String × TypeMismatch)) : Finding :=
  .unresolved .typeMismatch
    (String.intercalate "; " (ms.map fun (operation, m) => s!"{operation}: {m.message}"))
    (ms.map fun (operation, _) => operation)

def unmatched (nearby : List Phrase) : Finding :=
  let detail : Phrase :=
    if nearby.isEmpty then "" else "Closest templates: " ++ Phrase.join ", " nearby
  .unresolved .noMatch detail nearby

/-- The resolution of a normal statement, given what became of each template of its kind. -/
def ofAttempts (statement : String) (tried : List (Template × Template.Attempt)) : Finding :=
  let bound := tried.filterMap fun (t, a) => a.binding?.map (t, ·)
  let mismatches := tried.filterMap fun (t, a) => a.mismatch?.map (t.operation, ·)
  match bound with
  | [(_, b)] => .resolved b
  | [] =>
    if mismatches.isEmpty then unmatched (Text.closest statement (tried.map (·.1.pattern)))
    else mismatched mismatches
  | _ => .ambiguous (bound.map (·.2.operation)) (bound.map (·.1.pattern))

end Resolution

def Registry.resolve (r : Registry) (kind : Kind) (statement : String) :
    Except Misfit Finding := do
  let statement := Text.normalize statement
  let tried ← (r.ofKind kind).mapM fun t => return (t, ← t.attempt statement)
  return .ofAttempts statement tried

namespace Plan

variable {ν : Type}

def Step.resolve (r : Registry) (s : DraftStep ν) : Except Misfit (DraftStep ν) := do
  return { s with resolution := ← r.resolve s.kind s.statement }

def Scenario.resolve (r : Registry) (s : DraftScenario ν) : Except Misfit (DraftScenario ν) := do
  return { s with steps := ← s.steps.mapM (·.resolve r) }

/-- The plan with every statement held against the registry. -/
def Document.resolve (r : Registry) (p : Draft ν) : Except Misfit (Draft ν) := do
  return { p with scenarios := ← p.scenarios.mapM (·.resolve r) }

/-- What keeps a step from being emitted. -/
def Step.problem? [ToValue ν] (source : Value) (scenarioId : String) (s : DraftStep ν) :
    Option Problem :=
  let statement := Value.text s!"{s.kind.keyword} {s.statement}."
  match s.resolution with
  | .resolved _ => none
  | .ambiguous candidates patterns =>
    some (.ambiguous ⟨source, .text scenarioId, statement, candidates.map .text, toValue s.line,
      patterns.map .ofPhrase⟩)
  | .unresolved reason detail _ =>
    some (.unresolved ⟨source, .text scenarioId, statement, .text reason.name, .ofPhrase detail,
      toValue s.line⟩)

/-- One problem for each step that is not resolved, in order. -/
def Scenario.problems [ToValue ν] (source : Value) (s : DraftScenario ν) : List Problem :=
  s.steps.filterMap (·.problem? source s.id)

end Plan
end Acceptance

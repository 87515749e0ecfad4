import Acceptance.Plan.Build
import Acceptance.Spec.Reader
import Acceptance.Spec.Render
/-!
Specs handed over as data, with any data in the place of a name, a title or a line number.
-/
namespace Acceptance.Spec

abbrev Given := Document Value Value

/-- The spec that a text says, under a source that may be any data. -/
def parseGiven (text : String) (source : Value) : Outcome (Document Value Nat) := do
  let s ← (tokens text >>= readTokens namelessSource).mapError (Slip.fault source)
  let s := s.map Value.text id
  return if source.isTruthy then { s with path := source } else s

/-- What a title or description shows. Nothing and the like show as no text. -/
def headline (v : Value) : String := if v.isTruthy then v.display else ""

namespace Given

/-- The text of a spec. -/
def render (s : Given) : String := (s.map headline id).render

def sameScenario {ν μ : Type} (s : Scenario Value ν) (t : Scenario Value μ) : Bool :=
  s.title.same t.title && s.steps.map (·.map fun _ => ()) = t.steps.map (·.map fun _ => ())

/-- Do two specs say the same, line numbers apart? -/
def same {ν μ : Type} (s : Document Value ν) (t : Document Value μ) : Bool :=
  s.path.same t.path && s.description.same t.description &&
    s.scenarios.length == t.scenarios.length &&
    (s.scenarios.zip t.scenarios).all fun (a, b) => sameScenario a b

def textOf (v : Value) : Outcome String :=
  match v.text? with
  | some s => .ok s
  | none => .error (.misfit .wrongKind)

def planScenario (path : Value) (s : Scenario Value Value) :
    Outcome (Plan.DraftScenario Value) :=
  match Plan.flaw? s with
  | some flaw => .error (.problem (.plan ⟨path, flaw⟩))
  | none => do return Plan.ofScenario { s with title := ← textOf s.title }

/-- The plan of a spec. Its titles and its description have to be texts; each is looked at in its
turn. -/
def plan (s : Given) : Outcome (Plan.Draft Value) := do
  if s.scenarios.isEmpty then .error (.problem (.plan ⟨s.path, .noScenarios⟩))
  let scenarios ← s.scenarios.mapM (planScenario s.path)
  let description ← textOf s.description
  return ⟨s.path.display, Text.normalize description, scenarios⟩

end Given
end Acceptance.Spec

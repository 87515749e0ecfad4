import Acceptance.Json.Writer
import Acceptance.Plan.Build
/-!
Plans as data. Reading keeps whatever data stands where a text or a line number belongs; only the
shape and the fixed choices are checked, in the order in which they are needed.
-/
namespace Acceptance

/-- A parameter as data has it: any name, any value, and one of the type names. -/
structure StoredParameter where
  name : Value
  type : LiteralType
  value : Value
  deriving Repr

namespace StoredParameter

def ofParameter (p : Parameter) : StoredParameter :=
  ⟨.text p.name, p.literal.type, .ofLiteral p.literal⟩

def make (name value type : Value) : Except Misfit StoredParameter :=
  match type.text?.bind LiteralType.ofName? with
  | some t => .ok ⟨name, t, value⟩
  | none => .error (.unknownType type.display)

def record (p : StoredParameter) : Value :=
  .record [("name", p.name), ("type", .text p.type.name), ("value", p.value)]

def ofRecord (v : Value) : Except Misfit StoredParameter := do
  make (← v.item "name") (← v.item "value") (← v.item "type")

def same (p q : StoredParameter) : Bool :=
  p.name.same q.name && p.type = q.type && p.value.same q.value

end StoredParameter

namespace Plan

abbrev StoredStep := Step Value Value StoredParameter Value

abbrev StoredScenario := Scenario Value Value StoredParameter Value

/-- A plan as data has it. -/
abbrev Stored := Document Value Value StoredParameter Value

abbrev StoredResolution := Resolution Value Value StoredParameter

def Document.stored {ν : Type} [ToValue ν] (p : Draft ν) : Stored :=
  p.map .text .ofPhrase .ofParameter toValue

def marker : String := "gwt-compiler IR - regenerated from GWT specs on every compile."

def listKey : Kind → String
  | .context => "given"
  | .action => "when"
  | .outcome => "then"

/-! ### Writing -/

def resolutionFields : StoredResolution → List (String × Value)
  | .resolved b =>
    [("domain_operation", .record [("id", b.operation), ("args", .list (b.args.map (·.record))),
        ("pass_result", .boolean b.passResult)]),
     ("expected", (b.expected.map (·.record)).getD .null),
     ("comparison", .text b.comparison.name)]
  | .ambiguous candidates patterns =>
    [("ambiguous", .record [("candidates", .list candidates), ("patterns", .list patterns)])]
  | .unresolved reason detail candidates =>
    [("unresolved", .record [("reason", .text reason.name), ("detail", detail),
        ("candidates", .list candidates)])]

def stepRecord (s : StoredStep) : Value :=
  .record ([("statement", s.statement), ("line", s.line),
    ("parameters", .list (s.parameters.map (·.record)))] ++ resolutionFields s.resolution)

def scenarioRecord (s : StoredScenario) : Value :=
  .record ([("id", s.id), ("title", s.title), ("line", s.line)] ++
    Kind.all.map fun k => (listKey k, .list ((s.ofKind k).map stepRecord)))

def record (d : Stored) : Value :=
  .record [("generated", .text marker), ("spec_file", d.source), ("description", d.description),
    ("scenarios", .list (d.scenarios.map scenarioRecord))]

/-- The text of a plan file. -/
def text (d : Stored) : String := Json.sortedLayout.write (record d) ++ "\n"

/-- The text of a plan file, if all its numbers can be written. -/
def write (d : Stored) : Except Misfit String :=
  if (record d).isShowable then .ok (text d) else .error .numberTooLongToShow

/-! ### Reading -/

/-- A choice among names. -/
def choice {α : Type} (ofName? : String → Option α) (title : String) (v : Value) :
    Except Misfit α :=
  match v.text?.bind ofName? with
  | some a => .ok a
  | none => .error (.notAChoice v.literal title)

def comparisonOf (v : Value) : Except Misfit Comparison :=
  choice Comparison.ofName? "Comparison" v

def reasonOf (v : Value) : Except Misfit Reason := choice Reason.ofName? "UnresolvedReason" v

def parametersOf (v : Value) : Except Misfit (List StoredParameter) := do
  (← v.elements).mapM StoredParameter.ofRecord

def expectedOf (v : Value) : Except Misfit (Option StoredParameter) :=
  if v.isTruthy then return some (← StoredParameter.ofRecord v) else return none

def bindingOf (step operation : Value) : Except Misfit (Binding Value StoredParameter) := do
  let expected ← step.memberD "expected" .null
  let id ← operation.item "id"
  let args ← parametersOf (← operation.memberD "args" (.list []))
  let expected ← expectedOf expected
  let comparison ← comparisonOf (← step.memberD "comparison" (.text "eq"))
  let passResult ← operation.memberD "pass_result" (.boolean false)
  return ⟨id, args, expected, comparison, passResult.isTruthy⟩

def ambiguityOf (v : Value) : Except Misfit StoredResolution := do
  let candidates ← (← v.item "candidates").elements
  let patterns ← (← v.memberD "patterns" (.list [])).elements
  return .ambiguous candidates patterns

def openQuestionOf (v : Value) : Except Misfit StoredResolution := do
  let reason ← reasonOf (← v.memberD "reason" (.text "pending"))
  let detail ← v.memberD "detail" (.text "")
  let candidates ← (← v.memberD "candidates" (.list [])).elements
  return .unresolved reason detail candidates

def resolutionOf (step : Value) : Except Misfit StoredResolution := do
  match ← step.member? "domain_operation" with
  | some operation => return .resolved (← bindingOf step operation)
  | none =>
    match ← step.member? "ambiguous" with
    | some v => ambiguityOf v
    | none => openQuestionOf (← step.memberD "unresolved" (.map []))

def stepOf (kind : Kind) (v : Value) : Except Misfit StoredStep := do
  let statement ← v.item "statement"
  let parameters ← parametersOf (← v.memberD "parameters" (.list []))
  let resolution ← resolutionOf v
  let line ← v.memberD "line" (.int 0)
  return ⟨kind, statement, parameters, resolution, line⟩

def sectionOf (v : Value) (kind : Kind) : Except Misfit (List StoredStep) := do
  (← (← v.memberD (listKey kind) (.list [])).elements).mapM (stepOf kind)

def scenarioOf (v : Value) : Except Misfit StoredScenario := do
  let steps ← Kind.all.mapM (sectionOf v)
  let id ← v.item "id"
  let title ← v.memberD "title" (.text "")
  let line ← v.memberD "line" (.int 0)
  return ⟨id, title, steps.flatten, line⟩

/-- The plan that a value stands for. -/
def ofValue (v : Value) : Except Misfit Stored := do
  let scenarios ← (← (← v.memberD "scenarios" (.list [])).elements).mapM scenarioOf
  let source ← v.item "spec_file"
  let description ← v.memberD "description" (.text "")
  return ⟨source, description, scenarios⟩

/-- A scenario's id, made again from its steps. -/
def recomputedId (s : StoredScenario) : String :=
  scenarioId (s.steps.map fun t => (t.kind, t.statement.display))

/-! ### Sameness, line numbers apart -/

def sameBinding (a b : Binding Value StoredParameter) : Bool :=
  a.operation.same b.operation && sameParameters a.args b.args &&
    sameParameters a.expected.toList b.expected.toList && a.comparison = b.comparison &&
    a.passResult == b.passResult
where
  sameParameters (ps qs : List StoredParameter) : Bool :=
    ps.length == qs.length && (ps.zip qs).all fun (p, q) => p.same q

def sameResolution : StoredResolution → StoredResolution → Bool
  | .resolved a, .resolved b => sameBinding a b
  | .ambiguous cs ps, .ambiguous ds qs => Value.sameAll cs ds && Value.sameAll ps qs
  | .unresolved r d cs, .unresolved s e ds => r = s && d.same e && Value.sameAll cs ds
  | _, _ => false

def sameStep (s t : StoredStep) : Bool :=
  s.kind = t.kind && s.statement.same t.statement &&
    sameBinding.sameParameters s.parameters t.parameters && sameResolution s.resolution t.resolution

def sameScenario (s t : StoredScenario) : Bool :=
  s.id.same t.id && s.title.same t.title && s.steps.length == t.steps.length &&
    (s.steps.zip t.steps).all fun (a, b) => sameStep a b

def same (d e : Stored) : Bool :=
  d.source.same e.source && d.description.same e.description &&
    d.scenarios.length == e.scenarios.length &&
    (d.scenarios.zip e.scenarios).all fun (a, b) => sameScenario a b

end Plan
end Acceptance

import Acceptance.Spec.Kind
import Acceptance.Value.Access
/-!
Problems: what each stage of the work finds wrong with its input, and how it is worded. A problem
ends the work on one spec file, one scenario or one registry and is then reported.

What a problem tells about its place may come from outside and is kept as data.
-/
namespace Acceptance

inductive Stage
  | registry
  | parse
  | plan
  | resolve
  | emit
  | pipeline
  | test
  deriving DecidableEq, Repr

def Stage.name : Stage → String
  | .registry => "registry"
  | .parse => "parse"
  | .plan => "ir"
  | .resolve => "resolve"
  | .emit => "emit"
  | .pipeline => "pipeline"
  | .test => "test"

inductive SpecFlaw
  | openQuote
  | noPeriod
  | emptyStatement
  | noScenarios
  | outOfOrder (kind after : Kind)
  | lacks (kind : Kind)
  | danglingAnd
  | noKeyword
  | notUtf8
  | unreadable (reason : String)
  | note (text : String)
  deriving DecidableEq, Repr

def SpecFlaw.message : SpecFlaw → String
  | .openQuote => "Unterminated quoted literal"
  | .noPeriod => "Statement must end with '.'"
  | .emptyStatement => "Empty statement"
  | .noScenarios => "Spec file contains no scenarios"
  | .outOfOrder kind after => s!"{kind.keyword} cannot follow {after.keyword}"
  | .lacks kind => s!"Scenario must have at least one {kind.keyword} step"
  | .danglingAnd => "AND used before GIVEN/WHEN/THEN"
  | .noKeyword => "Expected GIVEN, WHEN or THEN"
  | .notUtf8 => "Spec file is not valid UTF-8"
  | .unreadable reason => s!"Cannot read spec file: {reason}"
  | .note text => text

/-- A flaw of a spec text, the line where it was found and the words next to it. -/
structure SpecError where
  flaw : SpecFlaw
  line : Value
  token : Value
  source : Value

/-- The name of a spec that came from memory. -/
def namelessSource : String := "<string>"

/-- The name that a spec goes by. -/
def sourceName (source : Option String) : String :=
  match source with
  | none => namelessSource
  | some s => if s = "" then namelessSource else s

def SpecError.message (e : SpecError) : Phrase :=
  let source : Phrase := if e.source.isTruthy then e.source.phrase else namelessSource
  let near := if e.token.isTruthy then s!" (near {e.token.literal})" else ""
  source ++ ":" ++ e.line.phrase ++ s!": {e.flaw.message}{near}"

inductive PlanFlaw
  | noScenarios
  | noSteps (line : Value)
  | outOfOrder (line : Value) (kind after : Kind)
  | incomplete (line : Value)

structure PlanError where
  source : Value
  flaw : PlanFlaw

def PlanError.message (e : PlanError) : Phrase :=
  let source := e.source.phrase
  let place := fun (line : Value) => source ++ ":" ++ line.phrase ++ ": "
  match e.flaw with
  | .noScenarios => source ++ ": spec file has no scenarios"
  | .noSteps line => place line ++ "scenario has no steps"
  | .outOfOrder line kind after => place line ++ s!"{kind.keyword} after {after.keyword}"
  | .incomplete line => place line ++ "scenario needs at least one WHEN and one THEN"

inductive RegistryFlaw
  | unreadable (reason : String)
  | badYaml
  | notAMapping
  | templatesNotAList
  | missingKey (key : String)
  | notDotted (key shown : String)
  | templateNotAMapping
  | unknownKeys (keys : List Phrase)
  | invalidKind (shown : Phrase)
  | emptyPattern
  | paramsNotAMapping
  | repeatedHoles (names : List String)
  | keywordHoles (names : List String)
  | paramsNotInPattern (names : List Phrase)
  | unknownType (type : Phrase) (name : String)
  | reservedResult
  | onlyForOutcomes (key : String)
  | unknownComparison (shown : Phrase)
  | bothExpectations
  | expectedNotInPattern (shown : Phrase)
  | noExpectationTaken (comparison : String)
  | needsExpected (names : List String)
  | unsupportedConstant (shown : String)
  | duplicatePattern (kind : Kind) (pattern : Phrase)
  deriving DecidableEq, Repr

/-- A flaw of a registry, either of the whole or of one template. -/
structure RegistryError where
  source : String
  template : Option Nat
  flaw : RegistryFlaw
  deriving DecidableEq, Repr

def RegistryError.context (e : RegistryError) : String :=
  match e.template with
  | none => e.source
  | some i => s!"{e.source}: templates[{i}]"

def RegistryError.message (e : RegistryError) : Phrase :=
  let context := e.context
  let listed := fun names => Value.commaJoin names
  match e.flaw with
  | .unreadable reason => s!"Cannot read registry {context}: {reason}"
  | .badYaml => s!"Invalid YAML in {context}: <yaml error>"
  | .notAMapping => s!"Invalid registry format in {context}: expected mapping"
  | .templatesNotAList => s!"'templates' must be a list in {context}"
  | .missingKey key => s!"Missing required key '{key}' in {context}"
  | .notDotted key shown => s!"{context}: '{key}' must be a dotted Python name, got {shown}"
  | .templateNotAMapping => s!"{context}: template must be a mapping"
  | .unknownKeys keys => s!"{context}: unknown key(s) " ++ Phrase.join ", " keys
  | .invalidKind shown => s!"{context}: invalid kind '" ++ shown ++ "'"
  | .emptyPattern => s!"{context}: empty pattern"
  | .paramsNotAMapping => s!"{context}: 'params' must be a mapping of name to type"
  | .repeatedHoles names => s!"{context}: placeholder(s) repeated: {listed names}"
  | .keywordHoles names => s!"{context}: placeholder name(s) are Python keywords: {listed names}"
  | .paramsNotInPattern names => s!"{context}: params not in pattern: " ++ Phrase.join ", " names
  | .unknownType type name => s!"{context}: unknown type '" ++ type ++ s!"' for '{name}'"
  | .reservedResult => s!"{context}: 'result' is reserved when pass_result is set"
  | .onlyForOutcomes key => s!"{context}: '{key}' only applies to THEN templates"
  | .unknownComparison shown => s!"{context}: unknown comparison '" ++ shown ++ "'"
  | .bothExpectations => s!"{context}: use either 'expected' or 'expected_value', not both"
  | .expectedNotInPattern shown =>
    s!"{context}: expected placeholder '" ++ shown ++ "' is not in the pattern"
  | .noExpectationTaken comparison =>
    s!"{context}: comparison '{comparison}' takes no expected value"
  | .needsExpected names =>
    let choices := if names.isEmpty then "none" else listed names
    s!"{context}: THEN template needs 'expected' to name its expected placeholder " ++
      s!"(one of: {choices})"
  | .unsupportedConstant shown => s!"{context}: unsupported expected_value {shown}"
  | .duplicatePattern kind pattern =>
    s!"{context}: duplicate {kind.keyword} pattern '" ++ pattern ++ "'"

structure UnresolvedError where
  source : Value
  scenarioId : Value
  statement : Value
  reason : Value
  detail : Value
  line : Value

def UnresolvedError.message (e : UnresolvedError) : Phrase :=
  let place := e.source.phrase ++ ":" ++ e.line.phrase
  let base := place ++ ": unresolved (" ++ e.reason.phrase ++ "): " ++ e.statement.phrase
  if e.detail.isTruthy then base ++ ". " ++ e.detail.phrase else base

structure AmbiguousError where
  source : Value
  scenarioId : Value
  statement : Value
  candidates : List Value
  line : Value
  patterns : List Value

def AmbiguousError.message (e : AmbiguousError) : Phrase :=
  let listed :=
    if e.patterns.isEmpty then e.candidates.map (·.phrase)
    else
      let shown := fun (op pattern : Value) => op.phrase ++ " ('" ++ pattern.phrase ++ "')"
      List.zipWith shown e.candidates e.patterns
  let place := e.source.phrase ++ ":" ++ e.line.phrase
  place ++ ": ambiguous: " ++ e.statement.phrase ++ " Candidates: " ++ Phrase.join ", " listed

inductive EmissionFlaw
  | notResolved (scenarioId : String) (kind : Kind) (statement : String)
  | noExpectation (statement : String)
  deriving DecidableEq, Repr

def EmissionFlaw.message : EmissionFlaw → String
  | .notResolved scenarioId kind statement =>
    s!"Cannot emit scenario {scenarioId}: '{kind.keyword} {statement}.' is not resolved"
  | .noExpectation statement => s!"Missing expected value for '{statement}'"

/-- A test that did not pass. -/
structure TestFailure where
  test : Value
  message : Value
  source : Value
  scenarioId : Value
  statement : Value

def TestFailure.report (f : TestFailure) : Phrase :=
  let place : Phrase := if f.source.isTruthy then f.source.phrase ++ ": " else ""
  let what : Phrase := if f.statement.isTruthy then f.statement.phrase ++ " " else ""
  (place ++ what ++ "[" ++ f.test.phrase ++ "] " ++ f.message.phrase).trim

inductive Problem
  | spec (e : SpecError)
  | plan (e : PlanError)
  | registry (e : RegistryError)
  | unresolved (e : UnresolvedError)
  | ambiguous (e : AmbiguousError)
  | emission (e : EmissionFlaw)
  | sharedOutput (file slug owner : String)
  | failure (e : TestFailure)
  | note (stage : Stage) (text : String)

namespace Problem

def stage : Problem → Stage
  | .spec _ => .parse
  | .plan _ => .plan
  | .registry _ => .registry
  | .unresolved _ => .resolve
  | .ambiguous _ => .resolve
  | .emission _ => .emit
  | .sharedOutput .. => .pipeline
  | .failure _ => .test
  | .note stage _ => stage

def message : Problem → Phrase
  | .spec e => e.message
  | .plan e => e.message
  | .registry e => e.message
  | .unresolved e => e.message
  | .ambiguous e => e.message
  | .emission e => e.message
  | .sharedOutput file slug owner =>
    s!"{file}: output name test_{slug}.py is already used by {owner}"
  | .failure e => e.report
  | .note _ text => text

/-- What a report tells about a problem beyond stage and message. -/
def details : Problem → List (String × Value)
  | .spec e => [("file", e.source), ("line", e.line), ("token", e.token)]
  | .unresolved e =>
    [("file", e.source), ("line", e.line), ("scenario_id", e.scenarioId),
     ("statement", e.statement), ("reason", e.reason)]
  | .ambiguous e =>
    [("file", e.source), ("line", e.line), ("scenario_id", e.scenarioId),
     ("statement", e.statement), ("reason", .text "ambiguous"),
     ("candidates", .list e.candidates), ("patterns", .list e.patterns)]
  | .failure e =>
    [("file", e.source), ("scenario_id", e.scenarioId), ("statement", e.statement),
     ("test", e.test)]
  | _ => []

def record (p : Problem) : Value :=
  .record (("stage", .text p.stage.name) :: ("message", .ofPhrase p.message) :: p.details)

end Problem
end Acceptance

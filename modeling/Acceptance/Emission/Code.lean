import Acceptance.Emission.Names
import Acceptance.Plan.Stored
import Acceptance.Registry.Template
/-!
Test code. Each step of a scenario becomes a comment line with its statement and a line that calls
its operation; an outcome's line asserts on the result.
-/
namespace Acceptance.Emission

open Plan

def fixtureName : String := "isolated_world"

/-- Text made safe to stand between triple quotes. -/
def docChars : List Char → List Char
  | '"' :: '"' :: '"' :: cs => "\\\"\\\"\\\"".toList ++ docChars cs
  | '\\' :: cs => '\\' :: '\\' :: docChars cs
  | c :: cs => c :: docChars cs
  | [] => []

def docText (s : String) : String := String.ofList (docChars s.toList)

def textOf (v : Value) : Except Misfit String :=
  match v with
  | .text s => .ok s
  | _ => .error .noMember

def argument (p : StoredParameter) : String := s!"{p.name.display}={p.value.literal}"

def call (operation : Value) (result : Option String) (args : List StoredParameter) : String :=
  let given := (result.map fun r => s!"result={r}").toList ++ args.map argument
  s!"ops.{operation.display}({Value.commaJoin given})"

def stepText (s : StoredStep) : String := s!"{s.kind.keyword} {s.statement.display}."

def commentLine (s : StoredStep) : String := s!"    # {stepText s}"

/-- The variable that holds the result of an action, counted from one. -/
def actionVariable (n : Nat) : String := s!"when_{n}"

/-- The condition on what a call gives, without a value that is expected. -/
def checked (call : String) (c : Comparison) : String :=
  if c = .falsy then s!"not {call}" else call

/-- The condition that what a call gives compares with what is expected. -/
def compared (call expected : String) : Comparison → String
  | .eq => s!"{call} == {expected}"
  | .ne => s!"{call} != {expected}"
  | .gt => s!"{call} > {expected}"
  | .ge => s!"{call} >= {expected}"
  | .lt => s!"{call} < {expected}"
  | .le => s!"{call} <= {expected}"
  | .contains => s!"{expected} in {call}"
  | c => checked call c

def assertion (call : String) (b : Binding Value StoredParameter) (s : StoredStep) :
    Except EmissionFlaw String :=
  let message := Text.quoted (stepText s)
  if b.comparison.takesExpected then
    match b.expected with
    | some p => .ok s!"assert {compared call p.value.literal b.comparison}, {message}"
    | none => .error (.noExpectation s.statement.display)
  else .ok s!"assert {checked call b.comparison}, {message}"

/-- The code line of a step, `actions` being the number of actions up to it. -/
def codeLine (actions : Nat) (b : Binding Value StoredParameter) (s : StoredStep) :
    Except EmissionFlaw String :=
  match s.kind with
  | .context => .ok s!"    {call b.operation none b.args}"
  | .action => .ok s!"    {actionVariable actions} = {call b.operation none b.args}"
  | .outcome =>
    let result := if b.passResult then some (actionVariable actions) else none
    (assertion (call b.operation result b.args) b s).map fun line => s!"    {line}"

/-- The comment line and the code line of each step; `actions` counts those before. -/
def stepLines (scenarioId : Value) :
    Nat → List StoredStep → Except EmissionFlaw (List (String × String))
  | _, [] => .ok []
  | actions, s :: steps =>
    match s.resolution with
    | .resolved b => do
      let actions := if s.kind = .action then actions + 1 else actions
      let code ← codeLine actions b s
      return (commentLine s, code) :: (← stepLines scenarioId actions steps)
    | _ => .error (.notResolved scenarioId.display s.kind s.statement.display)

/-- Where the code of a step stands, in lines from one on. -/
structure Span where
  kind : Kind
  statement : Value
  specLine : Value
  first : Nat
  last : Nat

/-- The spans of steps of two lines each, the first of which starts at line `n`. -/
def spansFrom : Nat → List StoredStep → List Span
  | _, [] => []
  | n, s :: steps => ⟨s.kind, s.statement, s.line, n, n + 1⟩ :: spansFrom (n + 2) steps

def Span.shift (k : Nat) (s : Span) : Span := { s with first := s.first + k, last := s.last + k }

def Span.record (s : Span) : Value :=
  .record [("kind", .text s.kind.keyword), ("statement", s.statement), ("spec_line", s.specLine),
    ("first_line", .int s.first), ("last_line", .int s.last)]

structure TestCode where
  name : String
  scenarioId : Value
  title : Value
  lines : List String
  /-- Where the steps are, counted from the line of the definition. -/
  spans : List Span

def TestCode.code (t : TestCode) : String := String.intercalate "\n" t.lines

/-- What a test is named for: the title, or else the first action. -/
def nameSource (s : StoredScenario) : Value :=
  if s.title.isTruthy then s.title
  else ((s.ofKind .action).head?.map (·.statement)).getD (.text "")

def testName (taken : List String) (s : StoredScenario) : Except Misfit String := do
  let slug := testSlug (← textOf (nameSource s))
  let id ← idStart s.id
  return freshName taken s!"test_{slug}_{id}"

def usesFixture (r : Registry) : Bool := r.setup.isSome || r.teardown.isSome

def headLines (r : Registry) (name title : String) (id : Value) : List String :=
  let arguments := if usesFixture r then fixtureName else ""
  [s!"def {name}({arguments}):",
   s!"    \"\"\"Scenario: {docText title}",
   "",
   s!"    Scenario id: {id.display}",
   "    \"\"\""]

/-- The test of one scenario, with a name that is not taken. -/
def testCode (r : Registry) (taken : List String) (s : StoredScenario) : Outcome TestCode := do
  let name ← Value.orFault (testName taken s)
  let title ← if s.title.isTruthy then Value.orFault (textOf s.title) else pure "untitled"
  let head := headLines r name title s.id
  let code ← (stepLines s.id 0 s.steps).mapError fun flaw => .problem (.emission flaw)
  return ⟨name, s.id, s.title, head ++ code.flatMap (fun (a, b) => [a, b]),
    spansFrom (head.length + 1) s.steps⟩

end Acceptance.Emission

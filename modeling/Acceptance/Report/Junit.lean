import Acceptance.Fault
import Acceptance.Report.Run
import Acceptance.Value.Numbers
import Acceptance.Xml.Document
/-!
Results read from the report that the test process writes, and traced back to statements by the
manifests of the generated modules.
-/
namespace Acceptance

open Text

/-- The element that tells of each status other than passed; the first that is there counts. -/
def statusElements : List (String × TestStatus) :=
  [("failure", .failed), ("error", .error), ("skipped", .skipped)]

/-- The file of a module, from the dotted name of a test's class. -/
def moduleOfClass (name : String) : String :=
  if name = "" then ""
  else String.ofList ((splitAt '.' name.toList).getLast?.getD []) ++ ".py"

/-- The message of a result: what its element says in short and at length. -/
def messageOf (e : Xml.Element) : String :=
  let parts := [e.valueOf "message", e.text].filter (· ≠ "")
  String.ofList (trim (String.intercalate "\n" parts).toList)

def TestResult.ofCase (case : Xml.Element) : TestResult String :=
  let name := case.valueOf "name"
  let file := moduleOfClass (case.valueOf "classname")
  let told := statusElements.findSome? fun (tag, status) =>
    (case.child? tag).map fun e => (status, messageOf e)
  match told with
  | some (status, message) => { name, status, file, message }
  | none => { name, status := .passed, file, message := "" }

/-- The results of a report, in its order. -/
def resultsOfXml (text : String) : Outcome (List (TestResult String)) :=
  match Xml.read? text with
  | some root => .ok ((root.all.filter (·.name == "testcase")).map .ofCase)
  | none => .error .xml

/-! ### Manifests -/

/-- The digits behind a fixed text at the start, and what is behind them. -/
def takeNumber? (mark cs : List Char) : Option (List Char × List Char) := do
  let behind ← Xml.after? mark cs
  let digits := behind.takeWhile isDigit
  if digits = [] then none else some (digits, behind.dropWhile isDigit)

/-- The digits behind a fixed text, at each place where it has some. -/
def numbersAfter (mark cs : List Char) : List (List Char) :=
  match cs with
  | [] => []
  | c :: rest =>
    match takeNumber? mark (c :: rest) with
    | some (digits, after) =>
      if after.length ≤ rest.length then digits :: numbersAfter mark after else []
    | none => numbersAfter mark rest
termination_by cs.length

/-- The number of a text of digits. -/
def lineNumber (digits : List Char) : Except Misfit Nat :=
  if digits.length > Numeral.maxDigits then .error (.integerTooLong digits.length)
  else .ok (Numeral.digitsValue digits)

/-- Does the span of a step in a manifest hold the line? -/
def spanHolds (step : Value) (line : Nat) : Except Misfit Bool := do
  let first ← (← step.item "first_line").compareInt line
  if first = some .lt ∨ first = some .eq then
    let last ← (← step.item "last_line").compareInt line
    return last = some .gt ∨ last = some .eq
  else return false

def statementOf (step : Value) : Except Misfit Phrase := do
  let kind ← step.item "kind"
  let statement ← step.item "statement"
  return kind.phrase ++ " " ++ statement.phrase ++ "."

/-- Does a message hold the statement of a step? -/
def quotesStep (message : String) (step : Value) : Except Misfit Bool := do
  return (← statementOf step).text?.any (occursIn · message)

/-- The statement of the first step for which a test holds. -/
def firstStatement? (test : Value → Except Misfit Bool) :
    List Value → Except Misfit (Option Phrase)
  | [] => .ok none
  | step :: steps => do
    if ← test step then return some (← statementOf step) else firstStatement? test steps

/-- The statement that a failed test stopped at: the one whose code holds the last line number that
the message gives, or else the first that the message quotes. -/
def failingStatement (r : TestResult String) (entry : Value) : Except Misfit Phrase := do
  let steps ← entry.memberD "steps" (.list [])
  let numbers := numbersAfter (r.file ++ ":").toList r.message.toList
  let byLine ← match numbers.getLast? with
    | none => pure none
    | some digits => do
      let line ← lineNumber digits
      firstStatement? (spanHolds · line) (← steps.elements)
  match byLine with
  | some statement => return statement
  | none =>
    return (← firstStatement? (quotesStep r.message) (← steps.elements)).getD ""

/-- Manifests by the module that they tell about. -/
abbrev Manifests := List (Value × Value)

def TestResult.attach (manifests : Manifests) (r : TestResult String) :
    Except Misfit (TestResult String) := do
  match Value.lookup? r.file manifests with
  | none => return r
  | some .null => return r
  | some manifest =>
    let source ← manifest.memberD "spec_file" (.text "")
    let r := { r with source }
    match ← (← manifest.memberD "tests" (.map [])).member? r.name with
    | none => return r
    | some .null => return r
    | some entry =>
      let scenarioId ← entry.memberD "scenario_id" (.text "")
      let title ← entry.memberD "title" (.text "")
      let statement ← if r.status.isFailure then failingStatement r entry else pure ""
      return { r with scenarioId, title, statement := .ofPhrase statement }

end Acceptance

import Acceptance.Fault
import Acceptance.Spec.Basic
import Acceptance.Spec.Literals
import Acceptance.Spec.Token
/-!
Reading a spec. Blank lines separate blocks. A first block of comments only is the description; each
block with step lines is a scenario, titled by the comments before its first step.
-/
namespace Acceptance.Spec

open Text

/-- The maximal runs of tokens that are not blank. -/
def blocks : List Token → List (List Token)
  | [] => []
  | t :: ts =>
    if t.line.isBlank then blocks ts
    else
      match ts with
      | [] => [[t]]
      | u :: _ =>
        if u.line.isBlank then [t] :: blocks ts
        else
          match blocks ts with
          | [] => [[t]]
          | b :: bs => (t :: b) :: bs

def hasStep (block : List Token) : Bool := block.any (·.line.isStep)

/-- The words of comments that have any. -/
def Line.comment? : Line → Option String
  | .comment text => if text = "" then none else some text
  | _ => none

/-- The text of the comments among tokens. -/
def commentText (ts : List Token) : String :=
  let joined := String.intercalate " " (ts.filterMap (·.line.comment?))
  String.ofList (trim joined.toList)

/-- The kind of a step from its lead and the kind of the step before. Without a keyword an outcome
may go on. -/
def Lead.kind (lead : Lead) (statement : String) (previous : Option Kind) :
    Except (SpecFlaw × String) Kind :=
  match lead, previous with
  | .keyword k, none => .ok k
  | .keyword k, some j => if k.mayFollow j then .ok k else .error (.outOfOrder k j, k.keyword)
  | .again, some j => .ok j
  | .again, none => .error (.danglingAnd, "AND")
  | .bare, some .outcome => .ok .outcome
  | .bare, _ => .error (.noKeyword, String.ofList (firstWord statement.toList))

/-- The steps among tokens, where the step before has kind `previous`. -/
def readSteps (previous : Option Kind) : List Token → Except Slip (List (Step Nat))
  | [] => .ok []
  | ⟨.step lead statement, n⟩ :: ts =>
    match lead.kind statement previous with
    | .error (flaw, token) => .error (.flaw flaw n token)
    | .ok kind => do
      let parameters ← (extract statement).mapError Slip.misfit
      return ⟨kind, statement, parameters, n⟩ :: (← readSteps (some kind) ts)
  | _ :: ts => readSteps previous ts

def firstLine (block : List Token) : Nat := (block.head?.map (·.number)).getD 1

/-- The first kind that a scenario needs and does not have. -/
def missingKind? (steps : List (Step Nat)) : Option Kind :=
  [Kind.action, Kind.outcome].find? fun k => !steps.any (·.kind = k)

def lastStepText (steps : List (Step Nat)) : String :=
  (steps.getLast?.map fun s => s!"{s.kind.keyword} {s.text}.").getD ""

def readScenario (block : List Token) : Except Slip (Scenario String Nat) := do
  let steps ← readSteps none block
  match missingKind? steps with
  | some k => .error (.flaw (.lacks k) (firstLine block) (lastStepText steps))
  | none =>
    return ⟨commentText (block.takeWhile (!·.line.isStep)), steps, firstLine block⟩

/-- The description: the first block, if it has no steps. -/
def descriptionOf : List (List Token) → String
  | [] => ""
  | b :: _ => if hasStep b then "" else commentText b

/-- A text without scenarios is at fault at its first line that is not blank. -/
def noScenarios (ts : List Token) : Slip :=
  match ts.find? (!·.line.isBlank) with
  | some t => .flaw .noScenarios t.number t.line.text
  | none => .flaw .noScenarios 1 ""

def readTokens (path : String) (ts : List Token) : Except Slip Spec := do
  let bs := blocks ts
  let scenarios ← (bs.filter hasStep).mapM readScenario
  if scenarios.isEmpty then .error (noScenarios ts)
  return ⟨path, descriptionOf bs, scenarios⟩

/-- The fault that a slip is in a text with the given source. -/
def Slip.fault (source : Value) : Slip → Fault
  | .flaw f line token => .problem (.spec ⟨f, .int line, .text token, source⟩)
  | .misfit m => .misfit m

/-- The spec that a text says, under the name of its source. -/
def parse (text : String) (source : Option String) : Outcome Spec :=
  (tokens text >>= readTokens (sourceName source)).mapError
    (Slip.fault (.orNull (source.map .text)))

end Acceptance.Spec

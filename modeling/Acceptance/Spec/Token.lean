import Acceptance.Problem
import Acceptance.Text.Lines
import Acceptance.Text.Search
/-!
The lines of a spec text. A line is blank, a comment, or a step: a keyword or none, and a statement
that ends in a period and has its quotes closed.
-/
namespace Acceptance.Spec

open Text

/-- How a step line starts: with a keyword of its own, with `AND`, or with neither. -/
inductive Lead
  | keyword (k : Kind)
  | again
  | bare
  deriving DecidableEq, Repr

inductive Line
  | blank
  | bar (text : String)
  | comment (text : String)
  | step (lead : Lead) (statement : String)
  deriving DecidableEq, Repr

def Line.text : Line → String
  | .blank => ""
  | .bar text => text
  | .comment text => text
  | .step _ statement => statement

def Line.isBlank : Line → Bool
  | .blank => true
  | _ => false

def Line.isStep : Line → Bool
  | .step .. => true
  | _ => false

structure Token where
  line : Line
  number : Nat
  deriving DecidableEq, Repr

/-- Why reading a spec stops. -/
inductive Slip
  | flaw (f : SpecFlaw) (line : Nat) (token : String)
  | misfit (m : Misfit)
  deriving DecidableEq, Repr

/-- The words that start a step line, each with a space behind it. -/
def leads : List (List Char × Lead) :=
  [("GIVEN ".toList, .keyword .context), ("WHEN ".toList, .keyword .action),
   ("THEN ".toList, .keyword .outcome), ("AND ".toList, .again)]

/-- The lead of a line and what is behind it. -/
def splitLead (cs : List Char) : Lead × List Char :=
  match leads.find? fun l => l.1.isPrefixOf cs with
  | some (word, lead) => (lead, trim (cs.drop word.length))
  | none => (.bare, cs)

/-- The text from its last quote on. -/
def fromLastQuote (cs : List Char) : List Char :=
  '"' :: (cs.reverse.takeWhile (· ≠ '"')).reverse

/-- The statement of a line, without its period. -/
def readStatement (body : List Char) : Except (SpecFlaw × List Char) (List Char) :=
  if body.count '"' % 2 = 1 then .error (.openQuote, fromLastQuote body)
  else if body.getLast? ≠ some '.' then .error (.noPeriod, lastWord body)
  else
    let statement := trimEnd body.dropLast
    if statement = [] then .error (.emptyStatement, body) else .ok statement

def readLine (cs : List Char) : Except (SpecFlaw × List Char) Line :=
  match trim cs with
  | [] => .ok .blank
  | ';' :: rest =>
    if occurs "===".toList rest then .ok (.bar (String.ofList (';' :: rest)))
    else .ok (.comment (String.ofList (trim rest)))
  | body =>
    let (lead, rest) := splitLead body
    (readStatement rest).map fun statement => .step lead (String.ofList statement)

/-- The tokens of lines, the first of which has the given number. -/
def tokensFrom : Nat → List (List Char) → Except Slip (List Token)
  | _, [] => .ok []
  | n, l :: ls =>
    match readLine l with
    | .error (flaw, token) => .error (.flaw flaw n (String.ofList token))
    | .ok line => return ⟨line, n⟩ :: (← tokensFrom (n + 1) ls)

/-- One token for each line of the text. -/
def tokens (text : String) : Except Slip (List Token) := tokensFrom 1 (lines text.toList)

end Acceptance.Spec

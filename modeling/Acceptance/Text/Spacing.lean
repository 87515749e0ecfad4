import Acceptance.Text.Blank
/-!
Spacing: every run of blanks outside quoted literals becomes one space, and none is left at the
ends. Quotes pair from the left; a quote without a partner is an ordinary character.
-/
namespace Acceptance.Text

/-- Where in a text the collapsing of blanks stands: in ordinary text, behind a blank that has
already been written as a space, or inside a quoted literal. -/
inductive Region
  | plain
  | gap
  | quoted
  deriving DecidableEq, Repr

def collapse : Region → List Char → List Char
  | _, [] => []
  | .quoted, c :: cs => c :: collapse (if c = '"' then .plain else .quoted) cs
  | .plain, c :: cs =>
    if c = '"' then c :: collapse (if '"' ∈ cs then .quoted else .plain) cs
    else if isBlank c then ' ' :: collapse .gap cs
    else c :: collapse .plain cs
  | .gap, c :: cs =>
    if c = '"' then c :: collapse (if '"' ∈ cs then .quoted else .plain) cs
    else if isBlank c then collapse .gap cs
    else c :: collapse .plain cs

def respace (cs : List Char) : List Char := trim (collapse .plain cs)

/-- The text with single spaces. -/
def normalize (s : String) : String := String.ofList (respace s.toList)

example : respace " a \t b \"c  d\"  e ".toList = "a b \"c  d\" e".toList := by decide
example : respace "say \"a  b".toList = "say \"a b".toList := by decide

end Acceptance.Text

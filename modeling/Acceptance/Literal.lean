import Acceptance.Number.Numeral
/-!
Literals: the typed constants of statements, and parameters, which are literals with a name.
-/
namespace Acceptance

inductive LiteralType
  | text
  | number
  | boolean
  deriving DecidableEq, Repr

def LiteralType.name : LiteralType → String
  | .text => "string"
  | .number => "number"
  | .boolean => "boolean"

def LiteralType.all : List LiteralType := [.text, .number, .boolean]

def LiteralType.ofName? (s : String) : Option LiteralType := all.find? (·.name == s)

inductive Literal
  | text (s : String)
  /-- A text with halves of surrogate pairs, by its code points. -/
  | torn (points : List Nat)
  | int (n : Int)
  | float (x : Binary64)
  | boolean (b : Bool)
  deriving DecidableEq, Repr

def Literal.type : Literal → LiteralType
  | .text _ => .text
  | .torn _ => .text
  | .int _ => .number
  | .float _ => .number
  | .boolean _ => .boolean

structure Parameter where
  name : String
  literal : Literal
  deriving DecidableEq, Repr

theorem LiteralType.ofName?_name (t : LiteralType) : ofName? t.name = some t := by
  cases t <;> rfl

end Acceptance

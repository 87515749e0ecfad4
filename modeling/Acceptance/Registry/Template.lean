import Acceptance.Plan.Basic
import Acceptance.Registry.Pattern
/-!
Templates bind patterns of statements to operations; a registry holds the templates and names the
module that has the operations.
-/
namespace Acceptance

/-- What a hole may hold. -/
inductive HoleType
  | any
  | only (t : LiteralType)
  deriving DecidableEq, Repr

namespace HoleType

def name : HoleType → String
  | .any => "any"
  | .only t => t.name

def ofName? (s : String) : Option HoleType :=
  if s = "any" then some .any else (LiteralType.ofName? s).map .only

theorem ofName?_name (t : HoleType) : ofName? t.name = some t := by
  cases t with
  | any => rfl
  | only t => cases t <;> rfl

end HoleType

structure Template where
  kind : Kind
  pattern : Phrase
  operation : String
  holes : List (String × HoleType)
  /-- The hole whose value is expected. -/
  expected : Option String
  /-- The value that is expected whatever the statement says. -/
  constant : Option Literal
  comparison : Comparison
  passResult : Bool
  deriving DecidableEq, Repr

structure Registry where
  moduleName : String
  templates : List Template
  setup : Option String
  teardown : Option String
  path : String
  deriving DecidableEq, Repr

def Registry.ofKind (r : Registry) (k : Kind) : List Template := r.templates.filter (·.kind = k)

/-- A constant expectation goes by this name. -/
def Template.constantParameter (t : Template) : Option Parameter :=
  t.constant.map fun l => ⟨"expected", l⟩

end Acceptance

import Acceptance.Registry.Template
/-!
Turning captured text into typed parameters.
-/
namespace Acceptance

/-- A capture that is not of the type its hole asks for. -/
inductive TypeMismatch
  | number (name text : String)
  | truth (name text : String)
  deriving DecidableEq, Repr

def TypeMismatch.message : TypeMismatch → String
  | .number name text => s!"'{name}' expects a number, got {Text.quoted text}"
  | .truth name text => s!"'{name}' expects true or false, got {Text.quoted text}"

inductive CoerceError
  | mismatch (m : TypeMismatch)
  | misfit (m : Misfit)
  deriving DecidableEq, Repr

/-- The type of that name. A name that is not known stands for texts. -/
def HoleType.ofName (s : String) : HoleType := (ofName? s).getD (.only .text)

/-- The type that a text has by its looks. -/
def inferType (text : String) : LiteralType :=
  if (Numeral.ofText? text.toList).isSome then .number
  else if text = "true" ∨ text = "false" then .boolean
  else .text

def HoleType.literalType (t : HoleType) (quoted : Bool) (text : String) : LiteralType :=
  match t with
  | .only t => t
  | .any => if quoted then .text else inferType text

def readLiteral (name text : String) : LiteralType → Except CoerceError Literal
  | .text => .ok (.text text)
  | .boolean =>
    if text = "true" then .ok (.boolean true)
    else if text = "false" then .ok (.boolean false)
    else .error (.mismatch (.truth name text))
  | .number =>
    match Numeral.ofText? text.toList with
    | some n => n.literal.mapError .misfit
    | none => .error (.mismatch (.number name text))

/-- The parameter that a hole gets from the text it captured. -/
def coerce (name text : String) (type : HoleType) (quoted : Bool) : Except CoerceError Parameter :=
  (readLiteral name text (type.literalType quoted text)).map fun l => ⟨name, l⟩

end Acceptance

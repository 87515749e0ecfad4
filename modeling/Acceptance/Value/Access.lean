import Acceptance.Value.Display
/-!
Taking data apart where its shape is not known, and why that fails.
-/
namespace Acceptance

/-- Why a piece of data cannot be used where it stands. -/
inductive Misfit
  /-- A mapping lacks a key that is asked for. -/
  | missingKey (shown : String)
  /-- A member is asked of something that is no mapping, or a text operation of no text. -/
  | noMember
  /-- The kind of the value does not have the operation. -/
  | wrongKind
  /-- There is no item at the position. -/
  | noItem
  /-- A number is too large for what is asked of it. -/
  | tooLarge
  | notANumber
  | notAnInteger (base : Nat) (shown : String)
  | notAFloat (shown : String)
  | integerTooLong (digits : Nat)
  | notAChoice (shown choice : String)
  | unknownType (shown : String)
  | calendar (complaint : String)
  /-- There is no character with the number. -/
  | noCharacter
  /-- Following the data leads on and on. -/
  | endless
  /-- A text has collections that are nested too deep; the last one is a mapping or a list. -/
  | tooDeep (inMap : Bool)
  | numberTooLongToShow
  | unsupportedFramework (shown : Phrase)
  | notInside (path base : String)
  deriving DecidableEq, Repr

/-- The wording; where it is not fixed there is none. -/
def Misfit.message? : Misfit → Option Phrase
  | .missingKey shown => some shown
  | .noMember => none
  | .wrongKind => none
  | .noItem => none
  | .tooLarge => none
  | .notANumber => some "cannot convert float NaN to integer"
  | .notAnInteger base shown => some s!"invalid literal for int() with base {base}: {shown}"
  | .notAFloat shown => some s!"could not convert string to float: {shown}"
  | .integerTooLong digits =>
    some (s!"Exceeds the limit ({Numeral.maxDigits} digits) for integer string conversion: " ++
      s!"value has {digits} digits; use sys.set_int_max_str_digits() to increase the limit")
  | .notAChoice shown choice => some s!"{shown} is not a valid {choice}"
  | .unknownType shown => some s!"Invalid parameter type: {shown}"
  | .calendar complaint => some complaint
  | .noCharacter => some "chr() arg not in range(0x110000)"
  | .endless => none
  | .tooDeep inMap =>
    let kind := if inMap then "object" else "array"
    some s!"maximum recursion depth exceeded while decoding a JSON {kind} from a unicode string"
  | .numberTooLongToShow =>
    some (s!"Exceeds the limit ({Numeral.maxDigits} digits) for integer string conversion; " ++
      "use sys.set_int_max_str_digits() to increase the limit")
  | .unsupportedFramework shown =>
    some ("Unsupported test framework '" ++ shown ++ "'; only pytest is supported")
  | .notInside path base =>
    some (s!"{Text.quoted path} is not in the subpath of {Text.quoted base} " ++
      "OR one path is relative and the other is absolute.")

namespace Value

/-- What a mapping has under a key, if it has the key. -/
def member? (v : Value) (key : String) : Except Misfit (Option Value) :=
  match v.entries? with
  | some es => .ok (lookup? key es)
  | none => .error .noMember

/-- What a mapping has under a key, or else a given value. -/
def memberD (v : Value) (key : String) (fallback : Value) : Except Misfit Value :=
  return (← v.member? key).getD fallback

/-- What a mapping has under a key that it needs to have. -/
def item (v : Value) (key : String) : Except Misfit Value :=
  match v.entries? with
  | some es =>
    match lookup? key es with
    | some w => .ok w
    | none => .error (.missingKey (Text.quoted key))
  | none => .error .wrongKind

/-- The parts that a value runs through: items, characters of a text, keys of a mapping. -/
def elements (v : Value) : Except Misfit (List Value) :=
  match v.untied with
  | .list vs => .ok vs
  | .tuple vs => .ok vs
  | .set vs => .ok vs
  | .map es => .ok (es.map (·.1))
  | .text s => .ok (s.toList.map fun c => .text (String.singleton c))
  | .torn ps => .ok (ps.map fun n => ofPoints [n])
  | .bytes bs => .ok (bs.map fun b => .int b.toNat)
  | _ => .error .wrongKind

end Value
end Acceptance

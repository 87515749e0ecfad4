import Acceptance.Text.Utf8
import Acceptance.Xml.Element
/-!
Whole documents: a declaration at the very start, comments and instructions, at most one document
type, and the root.
-/
namespace Acceptance.Xml

/-! ### The characters of a document -/

/-- The characters of units of two bytes. Two units that make up one character give ten bits
each. -/
def charsOfUnits? : List Nat → Option (List Char)
  | [] => some []
  | u :: us =>
    if 0xd800 ≤ u ∧ u < 0xdc00 then
      match us with
      | [] => none
      | v :: us => do
        let n := 0x10000 + (u % 0x400) * 0x400 + v % 0x400
        return Char.ofNat n :: (← charsOfUnits? us)
    else if 0xdc00 ≤ u ∧ u < 0xe000 then none
    else return Char.ofNat u :: (← charsOfUnits? us)

/-- The units of two bytes each, of which the first or the second has the higher place. -/
def units? (highFirst : Bool) : List UInt8 → Option (List Nat)
  | [] => some []
  | [_] => none
  | a :: b :: rest => do
    let unit := if highFirst then 256 * a.toNat + b.toNat else a.toNat + 256 * b.toNat
    return unit :: (← units? highFirst rest)

/-- The characters of a document. Where one of the first two bytes is zero, the document is written
in units of two bytes. -/
def characters? (text : String) : Option (List Char) :=
  match (Text.encode text).toList with
  | 0 :: b :: bytes => (units? true (0 :: b :: bytes)).bind charsOfUnits?
  | a :: 0 :: bytes => (units? false (a :: 0 :: bytes)).bind charsOfUnits?
  | _ => some (Text.dropMark text).toList

/-! ### The declaration -/

def isVersionChar (c : Char) : Bool := c.isAlphanum || c == '.' || c == '-' || c == '_'

/-- The names and values of a declaration, each with white space before it. -/
def pairs? (cs : List Char) : Option (List (String × String)) :=
  let trimmed := cs.dropWhile isSpace
  match takeWord? trimmed with
  | none => if trimmed = [] then some [] else none
  | some (name, rest) => do
    if trimmed.length = cs.length then none
    let '=' :: rest := rest.dropWhile isSpace | none
    let (value, rest) ← takeQuoted? (rest.dropWhile isSpace)
    if value.all isVersionChar ∧ rest.length < cs.length then
      return (name, String.ofList value) :: (← pairs? rest)
    else none
termination_by cs.length

def isEncodingName (s : String) : Bool := s.toList.head?.any Char.isAlpha

/-- Does a declaration with the given pairs say that the document is complete? Some pairs make no
declaration. -/
def standalone? : List (String × String) → Option Bool
  | [("version", _)] => some false
  | [("version", _), ("encoding", name)] => if isEncodingName name then some false else none
  | [("version", _), ("standalone", "yes")] => some true
  | [("version", _), ("standalone", "no")] => some false
  | [("version", _), ("encoding", name), ("standalone", answer)] =>
    if isEncodingName name ∧ (answer = "yes" ∨ answer = "no") then some (answer == "yes") else none
  | _ => none

/-- Whether the document says that it is complete, and what is behind its declaration. -/
def takeDeclaration? (cs : List Char) : Option (Bool × List Char) :=
  match after? "<?xml".toList cs with
  | some (c :: rest) =>
    if isSpace c then do
      let (inside, rest) ← splitAt? "?>".toList (c :: rest)
      return (← standalone? (← pairs? inside), rest)
    else some (false, cs)
  | _ => some (false, cs)

/-- The root of a document, if the text is well-formed. -/
def read? (text : String) : Option Element := do
  let cs := Text.unifyBreaks (← characters? text)
  if !cs.all isChar then none
  let (standalone, rest) ← takeDeclaration? cs
  let (marks, body) ← marks? rest
  let d ← Doctype.ofProlog? standalone marks
  if !d.entities.areSmallIn body then none
  root? (← content? d d.entities.declared.length body)

end Acceptance.Xml

import Acceptance.Xml.Mark
/-!
The type of a document: the entities that it declares, and what it says about attributes. Its other
declarations are only checked for their form.
-/
namespace Acceptance.Xml

/-- What is said about an attribute of an element: whether its value is made of words, and the value
that it has where it is left out. -/
structure AttributeRule where
  element : String
  name : String
  isWords : Bool
  fallback : Option (List Char)
  deriving DecidableEq, Repr

structure Doctype where
  entities : Entities := {}
  rules : List AttributeRule := []
  /-- Is the document complete without the parts that are not read? -/
  standalone : Bool := false
  /-- Do further declarations count? -/
  isRead : Bool := true
  deriving DecidableEq, Repr

namespace Doctype

/-- Parts of the type are elsewhere and are not read. -/
def noteOutside (d : Doctype) : Doctype :=
  { d with entities := { d.entities with incomplete := !d.standalone } }

/-! ### Parts of declarations -/

/-- The replacement text that a quoted value stands for: character numbers are read at once. -/
def replacement? (cs : List Char) : Option (List Char) :=
  match cs with
  | [] => some []
  | '%' :: _ => none
  | '&' :: rest =>
    match takeReference? rest with
    | none => none
    | some (r, more) =>
      if more.length ≤ rest.length then do
        let written := '&' :: rest.take (rest.length - more.length)
        let value := match r, rest with
          | .char c, '#' :: _ => [c]
          | _, _ => written
        return value ++ (← replacement? more)
      else none
  | c :: rest => return c :: (← replacement? rest)
termination_by cs.length

def isPublicChar (c : Char) : Bool :=
  c.isAlphanum || " \n-'()+,./:=?;!*#@$_%".toList.contains c

/-- The names of something outside, and the marks behind. The second of two may be left out where
that is allowed. -/
def afterOutside? (bare : Bool) : List Mark → Option (List Mark)
  | .word .plain "SYSTEM" none :: .literal _ :: ms => some ms
  | .word .plain "PUBLIC" none :: .literal name :: .literal _ :: ms =>
    if name.all isPublicChar then some ms else none
  | .word .plain "PUBLIC" none :: .literal name :: ms =>
    if bare ∧ name.all isPublicChar then some ms else none
  | _ => none

/-- The marks behind the end of a declaration. -/
def afterClose? : List Mark → Option (List Mark)
  | .close :: ms => some ms
  | _ => none

/-! ### Entities -/

/-- Adds an entity, as far as declarations count. The first one of a name has the say. -/
def addEntity (name : String) (e : Entity) (d : Doctype) : Doctype :=
  let known := (named? name).isSome || (d.entities.declared.lookup name).isSome
  if d.isRead && !known then { d with entities := d.entities.add name e } else d

/-- What is behind the name of something outside and the note of its kind. -/
def afterNote (ms : List Mark) : List Mark :=
  match ms with
  | .word .plain "NDATA" none :: .word .plain _ none :: ms => ms
  | ms => ms

/-- The declaration of an entity. Where declarations do not count, a value is not looked at. -/
def entity? (d : Doctype) : List Mark → Option (Doctype × List Mark)
  | .percent :: .word .plain _ none :: .literal cs :: ms =>
    if d.isRead && (replacement? cs).isNone then none else (afterClose? ms).map (d, ·)
  | .percent :: .word .plain _ none :: ms =>
    ((afterOutside? false ms).bind afterClose?).map (d, ·)
  | .word .plain name none :: .literal cs :: ms =>
    match d.isRead, replacement? cs with
    | true, none => none
    | _, text => (afterClose? ms).map (d.addEntity name (.inside (text.getD [])), ·)
  | .word .plain name none :: ms =>
    ((afterOutside? false ms).bind (afterClose? <| afterNote ·)).map (d.addEntity name .outside, ·)
  | _ => none

/-! ### Elements -/

/-- Is it the name of an element or attribute? -/
def isElementName (form : NameForm) : Bool := form != .other

/-- What is behind a group of text and elements, from behind its first member on. -/
def afterMixed? : List Mark → Option (List Mark)
  | .bar :: .word form _ none :: .closeParen (some '*') :: ms =>
    if isElementName form then some ms else none
  | .bar :: .word form _ none :: ms => if isElementName form then afterMixed? ms else none
  | _ => none

/-- What is behind the open groups, innermost first, each with the mark that parts its members, if
there has been one. `atMember` tells whether a member has to come. -/
def afterGroups? : List (Option Mark) → Bool → List Mark → Option (List Mark)
  | groups, true, .openParen :: ms => afterGroups? (none :: groups) true ms
  | groups, true, .word form _ _ :: ms =>
    if isElementName form then afterGroups? groups false ms else none
  | [_], false, .closeParen _ :: ms => some ms
  | _ :: groups, false, .closeParen _ :: ms => afterGroups? groups false ms
  | group :: groups, false, m :: ms =>
    if (m = .comma ∨ m = .bar) ∧ (group = none ∨ group = some m) then
      afterGroups? (some m :: groups) true ms
    else none
  | _, _, _ => none

def afterModel? : List Mark → Option (List Mark)
  | .word .plain "EMPTY" none :: ms => some ms
  | .word .plain "ANY" none :: ms => some ms
  | .openParen :: .hash "PCDATA" :: .closeParen none :: ms => some ms
  | .openParen :: .hash "PCDATA" :: .closeParen (some '*') :: ms => some ms
  | .openParen :: .hash "PCDATA" :: ms => afterMixed? ms
  | .openParen :: ms => afterGroups? [none] true ms
  | _ => none

def afterElement? : List Mark → Option (List Mark)
  | .word form _ none :: ms =>
    if isElementName form then (afterModel? ms).bind afterClose? else none
  | _ => none

def afterNotation? : List Mark → Option (List Mark)
  | .word .plain _ none :: ms => (afterOutside? true ms).bind afterClose?
  | _ => none

/-! ### Attributes -/

/-- What is behind the choices of an attribute, from the first one on. -/
def afterChoices? (isChoice : NameForm → Bool) : List Mark → Option (List Mark)
  | .word form _ none :: .bar :: ms => if isChoice form then afterChoices? isChoice ms else none
  | .word form _ none :: .closeParen none :: ms => if isChoice form then some ms else none
  | _ => none

def wordTypes : List String :=
  ["ID", "IDREF", "IDREFS", "ENTITY", "ENTITIES", "NMTOKEN", "NMTOKENS"]

/-- The type of an attribute, which tells whether its value is made of words. -/
def takeType? : List Mark → Option (Bool × List Mark)
  | .word .plain "CDATA" none :: ms => some (false, ms)
  | .word .plain "NOTATION" none :: .openParen :: ms =>
    (afterChoices? (· == .plain) ms).map (true, ·)
  | .word .plain type none :: ms => if wordTypes.contains type then some (true, ms) else none
  | .openParen :: ms => (afterChoices? (fun _ => true) ms).map (true, ·)
  | _ => none

def takeFallback? : List Mark → Option (Option (List Char) × List Mark)
  | .hash "IMPLIED" :: ms => some (none, ms)
  | .hash "REQUIRED" :: ms => some (none, ms)
  | .hash "FIXED" :: .literal cs :: ms => some (some cs, ms)
  | .literal cs :: ms => some (some cs, ms)
  | _ => none

/-- Adds a rule, as far as rules count. The first one of an attribute has the say. -/
def addRule? (element name : String) (isWords : Bool) (fallback : Option (List Char))
    (d : Doctype) : Option Doctype := do
  if !d.isRead then return d
  let fallback ← match fallback with
    | none => pure none
    | some cs => some <$> attributeValue? d.entities isWords cs
  if d.rules.any fun r => r.element == element && r.name == name then return d
  return { d with rules := d.rules ++ [⟨element, name, isWords, fallback⟩] }

/-- The rules for the attributes of an element. -/
def rules? (d : Doctype) (element : String) (ms : List Mark) : Option (Doctype × List Mark) :=
  match ms with
  | .close :: ms => some (d, ms)
  | .word form name none :: rest =>
    if isElementName form then
      match takeType? rest with
      | none => none
      | some (isWords, more) =>
        match takeFallback? more with
        | none => none
        | some (fallback, more) =>
          match d.addRule? element name isWords fallback with
          | none => none
          | some d => if more.length ≤ rest.length then rules? d element more else none
    else none
  | _ => none
termination_by ms.length

def attributes? (d : Doctype) : List Mark → Option (Doctype × List Mark)
  | .word form element none :: ms => if isElementName form then rules? d element ms else none
  | _ => none

/-! ### The whole -/

/-- One declaration, behind its keyword. -/
def declaration? (d : Doctype) (keyword : String) (ms : List Mark) :
    Option (Doctype × List Mark) :=
  match keyword with
  | "ENTITY" => d.entity? ms
  | "ATTLIST" => d.attributes? ms
  | "ELEMENT" => (afterElement? ms).map (d, ·)
  | "NOTATION" => (afterNotation? ms).map (d, ·)
  | _ => none

/-- The declarations up to the closing bracket. A reference to a parameter is not followed, and what
comes behind it only counts in a document that is complete. -/
def subset? (d : Doctype) (ms : List Mark) : Option (Doctype × List Mark) :=
  match ms with
  | .closeBracket :: rest => some (d, rest)
  | .remark :: rest => d.subset? rest
  | .parameter _ :: rest => { d with isRead := d.standalone }.noteOutside.subset? rest
  | .opening keyword :: rest =>
    match d.declaration? keyword rest with
    | some (d, more) => if more.length ≤ rest.length then d.subset? more else none
    | none => none
  | _ => none
termination_by ms.length

/-- The type that the marks behind its keyword give. -/
def ofMarks? (standalone : Bool) : List Mark → Option (Doctype × List Mark)
  | .word form _ none :: ms => do
    if !isElementName form then none
    let d : Doctype := { standalone }
    let (d, ms) := match afterOutside? false ms with
      | some ms => (d.noteOutside, ms)
      | none => (d, ms)
    let (d, ms) ← match ms with
      | .openBracket :: ms => d.subset? ms
      | ms => some (d, ms)
    return (d, ← afterClose? ms)
  | _ => none

/-- The type that the marks before a root give; there may be none. -/
def ofProlog? (standalone : Bool) : List Mark → Option Doctype
  | [] => some { standalone }
  | .remark :: ms => ofProlog? standalone ms
  | .opening "DOCTYPE" :: ms => do
    let (d, ms) ← ofMarks? standalone ms
    if ms.all (· = .remark) then some d else none
  | _ => none

/-- What is said about an attribute. -/
def rule? (d : Doctype) (element name : String) : Option AttributeRule :=
  d.rules.find? fun r => r.element == element && r.name == name

end Doctype
end Acceptance.Xml

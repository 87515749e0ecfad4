import Acceptance.Text.Search
import Acceptance.Xml.Doctype
/-!
The events of a document's content: tags and text. Comments and processing instructions leave no
trace. References to entities of the document are read as their replacement texts.
-/
namespace Acceptance.Xml

inductive Event
  | start (name : Name) (attributes : List (Name × String))
  | finish (name : Name)
  /-- Text, and whether it is written out, not by reference or in a literal section. -/
  | text (cs : List Char) (plain : Bool)
  deriving DecidableEq, Repr

/-- The attributes of a tag as they are written, and what is behind them. Each has white space
before it. -/
def takeAttributes? (cs : List Char) : Option (List (Name × List Char) × List Char) :=
  let trimmed := cs.dropWhile isSpace
  match takeName? trimmed with
  | none => some ([], trimmed)
  | some (name, rest) => do
    if trimmed.length = cs.length then none
    let '=' :: rest := rest.dropWhile isSpace | none
    let (raw, rest) ← takeQuoted? (rest.dropWhile isSpace)
    if rest.length < cs.length then
      let (more, rest) ← takeAttributes? rest
      return ((name, raw) :: more, rest)
    else none
termination_by cs.length

/-- The name that a text writes. -/
def Name.ofText (s : String) : Name :=
  match Text.splitAt ':' s.toList with
  | [space, base] => ⟨some (String.ofList space), String.ofList base⟩
  | _ => ⟨none, s⟩

/-- The attributes of an element: those that are written, and then those that are left out but have
a value all the same. -/
def attributes? (d : Doctype) (element : String) (written : List (Name × List Char)) :
    Option (List (Name × String)) := do
  let given ← written.mapM fun (name, raw) => do
    let isWords := (d.rule? element name.written).any (·.isWords)
    return (name, String.ofList (← attributeValue? d.entities isWords raw))
  let left := d.rules.filterMap fun r =>
    if r.element == element && !written.any (·.1.written == r.name) then
      r.fallback.map fun value => (Name.ofText r.name, String.ofList value)
    else none
  return given ++ left

/-- The events of a tag whose opening bracket has been passed. -/
def takeTag? (d : Doctype) (cs : List Char) : Option (List Event × List Char) := do
  let (name, rest) ← takeName? cs
  let (written, rest) ← takeAttributes? rest
  let attributes ← attributes? d name.written written
  match rest with
  | '/' :: '>' :: rest => return ([.start name attributes, .finish name], rest)
  | '>' :: rest => return ([.start name attributes], rest)
  | _ => none

/-- The events of what an opening bracket starts. -/
def takeMarkup? (d : Doctype) (cs : List Char) : Option (List Event × List Char) :=
  match cs with
  | '!' :: '-' :: '-' :: rest => (afterComment? rest).map ([], ·)
  | '?' :: rest => (afterInstruction? rest).map ([], ·)
  | '/' :: rest =>
    match takeName? rest with
    | some (name, rest) =>
      match rest.dropWhile isSpace with
      | '>' :: rest => some ([.finish name], rest)
      | _ => none
    | none => none
  | '!' :: rest => do
    let (literal, rest) ← splitAt? "]]>".toList (← after? "[CDATA[".toList rest)
    return ([.text literal false], rest)
  | _ => takeTag? d cs

/-- The depth after some events, if it never falls below the start. -/
def depthAfter? : Nat → List Event → Option Nat
  | n, [] => some n
  | n, .start .. :: es => depthAfter? (n + 1) es
  | 0, .finish _ :: _ => none
  | n + 1, .finish _ :: es => depthAfter? n es
  | n, .text .. :: es => depthAfter? n es

def isData (c : Char) : Bool := c != '<' && c != '&'

def Event.byReference : Event → Event
  | .text cs _ => .text cs false
  | e => e

/-- The events of a whole text. Replacement texts may nest at most `depth` deep, and each has to
close what it opens. -/
def content? (d : Doctype) (depth : Nat) (cs : List Char) : Option (List Event) :=
  match cs with
  | [] => some []
  | '<' :: cs =>
    match takeMarkup? d cs with
    | none => none
    | some (events, rest) =>
      if rest.length ≤ cs.length then return events ++ (← content? d depth rest) else none
  | '&' :: cs =>
    match takeReference? cs with
    | none => none
    | some (r, rest) =>
      if rest.length ≤ cs.length then do
        let events ← match r, depth with
          | .char c, _ => some [Event.text [c] false]
          | .entity _, 0 => none
          | .entity name, depth + 1 => do
            let inner ← content? d depth (← d.entities.text? name)
            if depthAfter? 0 inner = some 0 then some (.text [] false :: inner.map (·.byReference))
            else none
        return events ++ (← content? d depth rest)
      else none
  | c :: cs => do
    let data := c :: cs.takeWhile isData
    if (splitAt? "]]>".toList data).isSome then none
    if (cs.dropWhile isData).length ≤ cs.length then
      return .text data true :: (← content? d depth (cs.dropWhile isData))
    else none
termination_by (depth, cs.length)

end Acceptance.Xml

import Acceptance.Text.Lines
import Acceptance.Xml.Event
/-!
Documents as trees of elements. Names are given in full: a name in a namespace starts with the
namespace in braces.
-/
namespace Acceptance.Xml

inductive Element
  | make (name : String) (attributes : List (String × String)) (text : String)
      (children : List Element)

namespace Element

def name : Element → String
  | .make name _ _ _ => name

def attributes : Element → List (String × String)
  | .make _ attributes _ _ => attributes

/-- The text before the first child. -/
def text : Element → String
  | .make _ _ text _ => text

def children : Element → List Element
  | .make _ _ _ children => children

/-- The value of an attribute; one that is missing counts as empty. -/
def valueOf (e : Element) (key : String) : String := (e.attributes.lookup key).getD ""

def child? (e : Element) (name : String) : Option Element := e.children.find? (·.name == name)

mutual

/-- The element and all below it, in document order. -/
def all : Element → List Element
  | .make name attributes text children =>
    .make name attributes text children :: allOf children

def allOf : List Element → List Element
  | [] => []
  | e :: es => e.all ++ allOf es

end

end Element

/-- Namespaces by shorthand; without one it is the namespace of bare element names. -/
abbrev Scope := List (Option String × String)

/-- The two namespaces that are fixed for all documents. -/
def xmlSpace : String := "http://www.w3.org/XML/1998/namespace"

def xmlnsSpace : String := "http://www.w3.org/2000/xmlns/"

def fullName (space base : String) : String := "\x7b" ++ space ++ "\x7d" ++ base

/-- Is the attribute a declaration of a namespace, and for which shorthand? -/
def declared? : Name → Option (Option String)
  | ⟨none, "xmlns"⟩ => some none
  | ⟨some "xmlns", base⟩ => some (some base)
  | _ => none

def mayDeclare (shorthand : Option String) (space : String) : Bool :=
  shorthand != some "xmlns" && space != xmlnsSpace && !space.toList.contains '\x7d' &&
    (shorthand == some "xml") == (space == xmlSpace) && (shorthand.isNone || space != "")

/-- The scope inside a tag with the given attributes. -/
def extendScope? (scope : Scope) : List (Name × String) → Option Scope
  | [] => some scope
  | (name, space) :: rest =>
    match declared? name with
    | none => extendScope? scope rest
    | some shorthand =>
      if mayDeclare shorthand space then extendScope? ((shorthand, space) :: scope) rest else none

def elementName? (scope : Scope) : Name → Option String
  | ⟨none, base⟩ =>
    match scope.lookup none with
    | none => some base
    | some space => some (if space = "" then base else fullName space base)
  | ⟨some s, base⟩ => (scope.lookup (some s)).map fun space => fullName space base

def attributeName? (scope : Scope) : Name → Option String
  | ⟨none, base⟩ => some base
  | ⟨some s, base⟩ => (scope.lookup (some s)).map fun space => fullName space base

/-- The attributes of a tag by their full names, each of which may come only once. -/
def attributesOf? (scope : Scope) (attributes : List (Name × String)) :
    Option (List (String × String)) := do
  if ¬(attributes.map (·.1)).Nodup then none
  let own := attributes.filter fun (name, _) => (declared? name).isNone
  let named ← own.mapM fun (name, value) => do return (← attributeName? scope name, value)
  if (named.map (·.1)).Nodup then some named else none

/-- An element whose end has not come yet; its children are kept last first. -/
structure Frame where
  written : Name
  name : String
  attributes : List (String × String)
  text : List Char
  children : List Element
  scope : Scope

def Frame.open? (scope : Scope) (name : Name) (attributes : List (Name × String)) :
    Option Frame := do
  let scope ← extendScope? scope attributes
  return ⟨name, ← elementName? scope name, ← attributesOf? scope attributes, [], [], scope⟩

def Frame.close (f : Frame) : Element :=
  .make f.name f.attributes (String.ofList f.text) f.children.reverse

def Frame.addText (f : Frame) (cs : List Char) : Frame :=
  if f.children.isEmpty then { f with text := f.text ++ cs } else f

def Frame.addChild (f : Frame) (e : Element) : Frame := { f with children := e :: f.children }

/-- Text that may stand outside of the root. -/
def Event.isFiller : Event → Bool
  | .text cs plain => plain && cs.all isSpace
  | _ => false

/-- The root that events make up inside the open elements, innermost first. -/
def build? (f : Frame) : List Frame → List Event → Option Element
  | _, [] => none
  | outer, .text cs _ :: es => build? (f.addText cs) outer es
  | outer, .start name attributes :: es =>
    match Frame.open? f.scope name attributes with
    | some g => build? g (f :: outer) es
    | none => none
  | outer, .finish name :: es =>
    if name = f.written then
      match outer with
      | [] => if es.all Event.isFiller then some f.close else none
      | g :: outer => build? (g.addChild f.close) outer es
    else none

def root? : List Event → Option Element
  | .start name attributes :: es => do
    build? (← Frame.open? [(some "xml", xmlSpace)] name attributes) [] es
  | _ => none

end Acceptance.Xml

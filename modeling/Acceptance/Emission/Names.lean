import Acceptance.Text.Slug
import Acceptance.Value.Access
/-!
Names of generated modules and tests.
-/
namespace Acceptance.Emission

/-- A path without the ending of spec files. -/
def stem (path : String) : String :=
  let cs := path.toList
  if ".gwt".toList.isSuffixOf cs then String.ofList (cs.take (cs.length - 4)) else path

/-- The part of a name that comes from the path of a spec below the specs directory. -/
def moduleSlug (path : String) : String :=
  let slug := Text.underscored (stem path)
  if slug = "" then "spec" else slug

def moduleFile (slug : String) : String := s!"test_{slug}.py"

def manifestFile (slug : String) : String := s!"test_{slug}.json"

def planFile (slug : String) : String := s!"{slug}.json"

def maxSlugLength : Nat := 60

/-- The part of a test's name that comes from a title or statement. -/
def testSlug (text : String) : String :=
  let cs := (Text.underscored text).toList.take maxSlugLength
  let slug := (cs.reverse.dropWhile (· == '_')).reverse
  if slug.isEmpty then "scenario" else String.ofList slug

/-- The first eight characters or items of an id. -/
def idStart : Value → Except Misfit String
  | .text s => .ok (String.ofList (s.toList.take 8))
  | .list vs => .ok (Value.list (vs.take 8)).display
  | .tuple vs => .ok (Value.tuple (vs.take 8)).display
  | _ => .error .wrongKind

/-- A name, followed by the same name with the numbers from 2 on. -/
def numbered (name : String) (count : Nat) : List String :=
  name :: (List.range count).map fun i => s!"{name}_{i + 2}"

/-- The first name of the series that is not taken. As many numbers as there are taken names are
enough to find one. -/
def freshName (taken : List String) (name : String) : String :=
  ((numbered name taken.length).find? (!taken.contains ·)).getD name

end Acceptance.Emission

import Acceptance.Text.Phrase
import Acceptance.Text.Search
/-!
Paths, taken by their parts and without a look at any file tree.
-/
namespace Acceptance

/-- A relative path has no slashes in front; an absolute one has one or two, which differ. -/
structure Path where
  slashes : Nat
  parts : List Phrase
  deriving DecidableEq, Repr

/-- Why no file can have a path. -/
inductive PathFlaw
  | nul
  | torn
  deriving DecidableEq, Repr

namespace Path

def slash : Nat := 47

def slashesOf (ps : List Nat) : Nat :=
  match (ps.takeWhile (· == slash)).length with
  | 0 => 0
  | 2 => 2
  | _ => 1

/-- Empty parts and single dots say nothing and are dropped. -/
def ofPhrase (p : Phrase) : Path :=
  let parts := (Text.splitAt slash p.points).map Phrase.mk
  ⟨slashesOf p.points, parts.filter fun s => s != "" && s != "."⟩

def ofText (text : String) : Path := ofPhrase text

/-- The names of the parts, with the replacement character in the place of what is no character. -/
def names (p : Path) : List String := p.parts.map (·.visible)

def root (p : Path) : String := String.ofList (List.replicate p.slashes '/')

/-- The path as it is told. -/
def phrase (p : Path) : Phrase :=
  if p.slashes = 0 ∧ p.parts = [] then "." else p.root ++ Phrase.join "/" p.parts

def text (p : Path) : String := p.phrase.visible

def isAbsolute (p : Path) : Bool := p.slashes > 0

/-- No file has a name with the character NUL, and halves of surrogate pairs have no bytes. -/
def flaw? (p : Path) : Option PathFlaw :=
  if p.parts.any (·.text?.isNone) then some .torn
  else if p.parts.any (·.points.contains 0) then some .nul
  else none

/-- The path `q` as seen from `p`. -/
def join (p q : Path) : Path := if q.isAbsolute then q else ⟨p.slashes, p.parts ++ q.parts⟩

def below (p : Path) (names : List String) : Path :=
  { p with parts := p.parts ++ names.map Phrase.ofText }

def child (p : Path) (name : String) : Path := p.below [name]

def parent (p : Path) : Path := { p with parts := p.parts.dropLast }

def name (p : Path) : String := p.names.getLast?.getD ""

def withName (p : Path) (name : String) : Path := p.parent.child name

/-- What leads from `base` to `p`, going down only. -/
def relativeTo? (p base : Path) : Option Path :=
  if p.slashes = base.slashes ∧ base.parts.isPrefixOf p.parts then
    some ⟨0, p.parts.drop base.parts.length⟩
  else none

def key (p : Path) : List String := if p.isAbsolute then p.root :: p.names else p.names

/-- Paths are ordered part by part. -/
def le (p q : Path) : Bool := !decide (q.key < p.key)

/-- Takes each `..` together with the part before it. The parts done are kept last first. -/
def climb : List Phrase → List Phrase → List Phrase
  | done, [] => done.reverse
  | done, part :: rest => if part = ".." then climb done.tail rest else climb (part :: done) rest

def resolved (p : Path) : Path := ⟨1, climb [] p.parts⟩

theorem relativeTo?_below (p : Path) (names : List String) :
    (p.below names).relativeTo? p = some ⟨0, names.map Phrase.ofText⟩ := by
  simp [relativeTo?, below]

@[simp] theorem parent_child (p : Path) (name : String) : (p.child name).parent = p := by
  simp [parent, child, below]

@[simp] theorem names_child (p : Path) (name : String) :
    (p.child name).names = p.names ++ [name] := by
  simp [names, child, below]

@[simp] theorem name_child (p : Path) (name : String) : (p.child name).name = name := by
  simp [Path.name]

end Path
end Acceptance

import Acceptance.Value.Access
/-!
Places in a YAML text, and the characters that part it.
-/
namespace Acceptance.Yaml

/-- Why a text cannot be read: it is not YAML, or a value in it cannot be. -/
inductive Failure
  | malformed
  | misfit (m : Misfit)
  deriving DecidableEq, Repr

def isLineBreak (c : Char) : Bool :=
  c == '\n' || c.toNat == 0x85 || c.toNat == 0x2028 || c.toNat == 0x2029

def isGap (c : Char) : Bool := c == ' ' || c == '\t'

/-- Does a text start with a line break, or end here? -/
def atLineEnd : List Char → Bool
  | [] => true
  | c :: _ => isLineBreak c

/-- Does a text start with a line break or a space, or end here? -/
def atSpace : List Char → Bool
  | ' ' :: _ => true
  | cs => atLineEnd cs

/-- Does a text start with a line break, a space or a tab, or end here? -/
def atGap : List Char → Bool
  | '\t' :: _ => true
  | cs => atSpace cs

def startsWith (c : Char) : List Char → Bool
  | d :: _ => c == d
  | [] => false

/-- Does a text start with a mark between documents? -/
def atSeparator (cs : List Char) : Bool :=
  (cs.take 3 == ['-', '-', '-'] || cs.take 3 == ['.', '.', '.']) && atGap (cs.drop 3)

/-- A place in a text: what follows, and where it is. -/
structure Cursor where
  rest : List Char
  index : Nat
  line : Nat
  column : Nat
  deriving DecidableEq, Repr

namespace Cursor

def start (text : String) : Cursor := ⟨text.toList, 0, 0, 0⟩

/-- The place behind the next character. A byte order mark takes no column. -/
def step (p : Cursor) : Cursor :=
  match p.rest with
  | [] => p
  | c :: cs =>
    if isLineBreak c then ⟨cs, p.index + 1, p.line + 1, 0⟩
    else ⟨cs, p.index + 1, p.line, if c.toNat = 0xfeff then p.column else p.column + 1⟩

def advance : Nat → Cursor → Cursor
  | 0, p => p
  | n + 1, p => advance n p.step

def skip (f : Char → Bool) (p : Cursor) : Cursor := p.advance (p.rest.takeWhile f).length

def skipSpaces (p : Cursor) : Cursor := p.skip (· == ' ')

/-- The line break at the place, as it counts in a text. -/
def takeBreak? (p : Cursor) : Option (Char × Cursor) :=
  match p.rest with
  | c :: _ =>
    if c == '\n' || c.toNat == 0x85 then some ('\n', p.step)
    else if isLineBreak c then some (c, p.step)
    else none
  | [] => none

/-- Skips the rest of a line that holds at most a comment. -/
def skipLine (p : Cursor) : Except Failure Cursor :=
  let p := p.skipSpaces
  let p := if startsWith '#' p.rest then p.skip (!isLineBreak ·) else p
  if atLineEnd p.rest then .ok ((p.takeBreak?.map (·.2)).getD p) else .error .malformed

/-- The characters of a class at the place, of which there have to be some. -/
def takeSome (f : Char → Bool) (p : Cursor) : Except Failure (List Char × Cursor) :=
  let cs := p.rest.takeWhile f
  if cs = [] then .error .malformed else .ok (cs, p.advance cs.length)

theorem length_step_lt {p : Cursor} (h : p.rest ≠ []) : p.step.rest.length < p.rest.length := by
  unfold step
  split
  · contradiction
  · next heq => split <;> simp [heq]

end Cursor
end Acceptance.Yaml

import Acceptance.Spec.Literals
import Acceptance.Text.Search
/-!
Statement patterns. A pattern is a text with holes, which are names in braces. A hole that stands
directly between double quotes takes everything up to the next quote; any other takes as little as
it can, at least one character and no line feed.
-/
namespace Acceptance.Registry

open Spec (isLetter isNameChar length_dropWhile_le)

inductive Piece
  | char (c : Char)
  | hole (name : String) (quoted : Bool)
  deriving DecidableEq, Repr

def isNameStart (c : Char) : Bool := isLetter c || c == '_'

/-- The name of a hole whose opening brace has been passed, and what is behind its closing one. -/
def takeHole? (cs : List Char) : Option (List Char × List Char) :=
  match cs.takeWhile isNameChar, cs.dropWhile isNameChar with
  | c :: name, d :: rest => if isNameStart c && d == '\x7d' then some (c :: name, rest) else none
  | _, _ => none

theorem length_takeHole?_lt {cs name rest : List Char} (h : takeHole? cs = some (name, rest)) :
    rest.length < cs.length := by
  unfold takeHole? at h
  split at h
  · next d r _ hdrop =>
    split at h
    · simp only [Option.some.injEq, Prod.mk.injEq] at h
      obtain ⟨-, rfl⟩ := h
      have := length_dropWhile_le isNameChar cs
      rw [hdrop, List.length_cons] at this
      omega
    · simp at h
  · simp at h

def startsWithQuote : List Char → Bool
  | '"' :: _ => true
  | _ => false

/-- The pieces of a pattern; `afterQuote` tells whether a quote stands right before. -/
def piecesFrom (afterQuote : Bool) (cs : List Char) : List Piece :=
  match cs with
  | [] => []
  | c :: cs =>
    if c = '\x7b' then
      match _h : takeHole? cs with
      | some (name, rest) =>
        .hole (String.ofList name) (afterQuote && startsWithQuote rest) :: piecesFrom false rest
      | none => .char c :: piecesFrom false cs
    else .char c :: piecesFrom (c == '"') cs
termination_by cs.length
decreasing_by
  · exact Nat.lt_succ_of_lt (length_takeHole?_lt _h)
  · simp
  · simp

def pieces (pattern : String) : List Piece := piecesFrom false pattern.toList

def Piece.name? : Piece → Option String
  | .char _ => none
  | .hole name _ => some name

/-- The names of the holes, in order. -/
def holeNames (ps : List Piece) : List String := ps.filterMap Piece.name?

/-- Puts a character at the start of the first capture. -/
def growFirst (c : Char) : List (List Char) → List (List Char)
  | [] => []
  | cap :: caps => (c :: cap) :: caps

/-- Captures with the least first one after which the rest can be matched. -/
def shortest (rest : List Char → Option (List (List Char))) :
    List Char → Option (List (List Char))
  | [] => none
  | c :: cs =>
    if c = '\n' then none
    else
      match rest cs with
      | some caps => some ([c] :: caps)
      | none => (shortest rest cs).map (growFirst c)

/-- The captures of the holes, if the pieces make up the whole text. -/
def fit : List Piece → List Char → Option (List (List Char))
  | [], [] => some []
  | [], _ :: _ => none
  | .char _ :: _, [] => none
  | .char c :: ps, d :: cs => if c = d then fit ps cs else none
  | .hole _ true :: ps, cs =>
    (fit ps (cs.dropWhile (· ≠ '"'))).map (cs.takeWhile (· ≠ '"') :: ·)
  | .hole _ false :: ps, cs => shortest (fit ps) cs

/-- What the holes of a pattern capture from a text. -/
def captures? (pattern text : String) : Option (List (String × String)) :=
  let ps := pieces pattern
  (fit ps text.toList).map fun caps => (holeNames ps).zip (caps.map String.ofList)

/-- Does the hole of this name stand between quotes somewhere in the pattern? -/
def quotesHole (pattern name : String) : Bool :=
  Text.occurs ('"' :: '\x7b' :: name.toList ++ ['\x7d', '"']) pattern.toList

end Acceptance.Registry

import Acceptance.Value.Display
/-!
Writing JSON text: in ASCII only, either in one line or with one item or entry a line.
-/
namespace Acceptance.Json

def unitEscape (n : Nat) : List Char := '\\' :: 'u' :: Text.hex 4 n

/-- A character inside quotes. Characters outside the first plane are written as two surrogates. -/
def escapeChar (c : Char) : List Char :=
  let n := c.toNat
  if c = '"' || c = '\\' then ['\\', c]
  else if c = '\n' then ['\\', 'n']
  else if c = '\r' then ['\\', 'r']
  else if c = '\t' then ['\\', 't']
  else if n = 8 then ['\\', 'b']
  else if n = 12 then ['\\', 'f']
  else if 0x20 ≤ n && n < 0x7f then [c]
  else if n < 0x10000 then unitEscape n
  else unitEscape (0xd800 + (n - 0x10000) / 0x400) ++ unitEscape (0xdc00 + (n - 0x10000) % 0x400)

def quoted (s : String) : String := String.ofList ('"' :: s.toList.flatMap escapeChar ++ ['"'])

/-- A code point inside quotes; halves of surrogate pairs are written by number. -/
def escapePoint (n : Nat) : List Char :=
  if Text.isHalf n then unitEscape n else escapeChar (Char.ofNat n)

def quotedPoints (ps : List Nat) : String :=
  String.ofList ('"' :: ps.flatMap escapePoint ++ ['"'])

def number (x : Binary64) : String :=
  match x with
  | .nan => "NaN"
  | .infinite negative => if negative then "-Infinity" else "Infinity"
  | x => x.text

/-- How a text is laid out. -/
structure Layout where
  /-- Spaces that each level is moved in; without, all stands in one line. -/
  indent : Option Nat
  /-- Are the entries of mappings sorted by key? -/
  sorted : Bool

def compactLayout : Layout := ⟨none, false⟩

/-- Plans, manifests and reports: two spaces a level, keys sorted. -/
def sortedLayout : Layout := ⟨some 2, true⟩

/-- Settings: two spaces a level, keys in the order given. -/
def orderedLayout : Layout := ⟨some 2, false⟩

/-- What stands before an item at a level. -/
def Layout.lead (l : Layout) (level : Nat) : String :=
  match l.indent with
  | none => ""
  | some n => "\n" ++ String.ofList (List.replicate (n * level) ' ')

def Layout.comma (l : Layout) : String := if l.indent.isSome then "," else ", "

def Layout.enclose (l : Layout) (level : Nat) (opening closing : String) (parts : List String) :
    String :=
  match parts with
  | [] => opening ++ closing
  | _ =>
    let between := l.comma ++ l.lead (level + 1)
    opening ++ l.lead (level + 1) ++ String.intercalate between parts ++ l.lead level ++ closing

/-- Entries in the order of their keys, which are given by code points. -/
def sortByKey (entries : List (List Nat × String)) : List (List Nat × String) :=
  entries.mergeSort fun a b => Text.pointsLe a.1 b.1

def Layout.entries (l : Layout) (es : List (List Nat × String)) : List String :=
  (if l.sorted then sortByKey es else es).map fun (k, v) => quotedPoints k ++ ": " ++ v

/-- The code points of a key. -/
def keyPoints : Value → List Nat
  | .torn ps => ps
  | k => Text.points k.display

mutual

/-- The text of a value that starts on a line of the given level. Data beyond JSON is written as
the text that displays it. -/
def Layout.render (l : Layout) (level : Nat) : Value → String
  | .null => "null"
  | .boolean b => if b then "true" else "false"
  | .int n => toString n
  | .float x => number x
  | .text s => quoted s
  | .torn ps => quotedPoints ps
  | .list vs => l.enclose level "[" "]" (l.renderItems (level + 1) vs)
  | .tuple vs => l.enclose level "[" "]" (l.renderItems (level + 1) vs)
  | .set vs => l.enclose level "[" "]" (l.renderItems (level + 1) vs)
  | .map es => l.enclose level "\x7b" "\x7d" (l.entries (l.renderEntries (level + 1) es))
  | v => quoted v.display

def Layout.renderItems (l : Layout) (level : Nat) : List Value → List String
  | [] => []
  | v :: vs => l.render level v :: l.renderItems level vs

def Layout.renderEntries (l : Layout) (level : Nat) :
    List (Value × Value) → List (List Nat × String)
  | [] => []
  | (k, v) :: es => (keyPoints k, l.render level v) :: l.renderEntries level es

end

def Layout.write (l : Layout) (v : Value) : String := l.render 0 v

/-- A text without halves is written as ever. -/
theorem quotedPoints_points (s : String) : quotedPoints (Text.points s) = quoted s := by
  simp [quotedPoints, quoted, Text.points, escapePoint, Text.isHalf_toNat, List.flatMap_map]

end Acceptance.Json

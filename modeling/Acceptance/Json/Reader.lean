import Acceptance.Value.Access
import Acceptance.Value.Same
/-!
Reading JSON text. Besides the standard the words `NaN`, `Infinity` and `-Infinity` are numbers. A
number with a fraction or an exponent is a binary64 number, any other an integer. Of several entries
with one key the last one counts, in the place of the first.
-/
namespace Acceptance.Json

inductive Complaint
  | byteOrderMark
  | value
  | extraData
  | propertyName
  | colon
  | comma
  | unterminatedString
  | controlCharacter
  | escape
  | unicodeEscape
  deriving DecidableEq, Repr

def Complaint.message : Complaint → String
  | .byteOrderMark => "Unexpected UTF-8 BOM (decode using utf-8-sig)"
  | .value => "Expecting value"
  | .extraData => "Extra data"
  | .propertyName => "Expecting property name enclosed in double quotes"
  | .colon => "Expecting ':' delimiter"
  | .comma => "Expecting ',' delimiter"
  | .unterminatedString => "Unterminated string starting at"
  | .controlCharacter => "Invalid control character at"
  | .escape => "Invalid \\escape"
  | .unicodeEscape => "Invalid \\uXXXX escape"

/-- A complaint about the text at a position, with the position's line and column. -/
structure SyntaxFlaw where
  complaint : Complaint
  position : Nat
  line : Nat
  column : Nat
  deriving DecidableEq, Repr

def SyntaxFlaw.message (e : SyntaxFlaw) : String :=
  s!"{e.complaint.message}: line {e.line} column {e.column} (char {e.position})"

inductive ReadError
  | flaw (e : SyntaxFlaw)
  | misfit (m : Misfit)
  deriving DecidableEq, Repr

/-- The text from a position on. -/
structure Cursor where
  rest : List Char
  position : Nat

/-- What goes wrong before line and column are known. -/
inductive Stop
  | complaint (c : Complaint) (position : Nat)
  | misfit (m : Misfit)

def complain {α : Type} (c : Complaint) (position : Nat) : Except Stop α :=
  .error (.complaint c position)

def isSpace (c : Char) : Bool := c == ' ' || c == '\t' || c == '\n' || c == '\r'

def skipSpace (c : Cursor) : Cursor :=
  let run := c.rest.takeWhile isSpace
  ⟨c.rest.drop run.length, c.position + run.length⟩

def hexValue? (c : Char) : Option Nat :=
  if '0' ≤ c ∧ c ≤ '9' then some (c.toNat - '0'.toNat)
  else if 'a' ≤ c ∧ c ≤ 'f' then some (c.toNat - 'a'.toNat + 10)
  else if 'A' ≤ c ∧ c ≤ 'F' then some (c.toNat - 'A'.toNat + 10)
  else none

/-- The number of four hexadecimal digits that are followed by at least one character. -/
def hex4? : List Char → Option (Nat × List Char)
  | a :: b :: c :: d :: e :: rest => do
    let high := (← hexValue? a) * 16 + (← hexValue? b)
    let low := (← hexValue? c) * 16 + (← hexValue? d)
    return (high * 256 + low, e :: rest)
  | _ => none

def isHighSurrogate (n : Nat) : Bool := 0xd800 ≤ n && n < 0xdc00

def isLowSurrogate (n : Nat) : Bool := 0xdc00 ≤ n && n < 0xe000

def joinSurrogates (high low : Nat) : Nat := 0x10000 + (high - 0xd800) * 0x400 + (low - 0xdc00)

/-- The character written by a backslash and `c`. -/
def simpleEscape? (c : Char) : Option Char :=
  match c with
  | '"' => some '"'
  | '\\' => some '\\'
  | '/' => some '/'
  | 'b' => some (Char.ofNat 8)
  | 'f' => some (Char.ofNat 12)
  | 'n' => some '\n'
  | 'r' => some '\r'
  | 't' => some '\t'
  | _ => none

/-- The code point of an escape, which may go on with the second half of a surrogate pair, where
more than the six characters of that are left. -/
def secondHalf (first : Nat) (cs : List Char) (position : Nat) :
    Except Stop (Nat × List Char × Nat) :=
  match isHighSurrogate first, cs with
  | true, '\\' :: 'u' :: more@(_ :: _ :: _ :: _ :: _ :: _) =>
    match hex4? more with
    | none => complain .unicodeEscape (position + 1)
    | some (second, rest) =>
      if isLowSurrogate second then
        .ok (joinSurrogates first second, rest, position + 6)
      else .ok (first, cs, position)
  | _, _ => .ok (first, cs, position)

/-- The code points of a string up to its closing quote, given those before, last one first. `start`
is where its opening quote stands, `fuel` bounds the number of its code points. -/
def stringTail (start : Nat) : Nat → List Nat → Cursor → Except Stop (Value × Cursor)
  | 0, _, _ => complain .unterminatedString start
  | fuel + 1, acc, c =>
    match c.rest with
    | [] => complain .unterminatedString start
    | '"' :: rest => .ok (.ofPoints acc.reverse, ⟨rest, c.position + 1⟩)
    | '\\' :: 'u' :: rest =>
      match hex4? rest with
      | none => complain .unicodeEscape (c.position + 1)
      | some (n, rest) => do
        let (d, rest, position) ← secondHalf n rest (c.position + 6)
        stringTail start fuel (d :: acc) ⟨rest, position⟩
    | '\\' :: e :: rest =>
      match simpleEscape? e with
      | none => complain .escape c.position
      | some d => stringTail start fuel (d.toNat :: acc) ⟨rest, c.position + 2⟩
    | ['\\'] => complain .unterminatedString start
    | d :: rest =>
      if d.toNat ≤ 0x1f then complain .controlCharacter c.position
      else stringTail start fuel (d.toNat :: acc) ⟨rest, c.position + 1⟩

/-- The string whose opening quote has just been passed. -/
def readString (c : Cursor) : Except Stop (Value × Cursor) :=
  stringTail (c.position - 1) (c.rest.length + 1) [] c

def isAsciiDigit (c : Char) : Bool := '0' ≤ c && c ≤ '9'

def digitsOf (cs : List Char) : List Char := cs.takeWhile isAsciiDigit

/-- The digits of the fraction, with the point taken off. -/
def fractionOf : List Char → List Char
  | '.' :: cs => digitsOf cs
  | _ => []

/-- Length and value of the exponent; without digits there is none. -/
def exponentOf : List Char → Option (Nat × Int)
  | e :: cs =>
    if e == 'e' || e == 'E' then
      let (sign, cs) : List Char × List Char := match cs with
        | '-' :: cs => (['-'], cs)
        | '+' :: cs => (['+'], cs)
        | _ => ([], cs)
      let ds := digitsOf cs
      if ds.isEmpty then none
      else
        let n := Numeral.digitsValue ds
        some (1 + sign.length + ds.length, if sign == ['-'] then -n else n)
    else none
  | [] => none

/-- Is there a minus sign, and what is behind it? -/
def splitSign : List Char → Bool × List Char
  | '-' :: cs => (true, cs)
  | cs => (false, cs)

/-- The digits before the point. A zero at the start stands alone. -/
def wholeOf : List Char → List Char
  | '0' :: _ => ['0']
  | cs => digitsOf cs

/-- The number at the cursor. -/
def readNumber? (c : Cursor) : Option (Except Stop (Value × Cursor)) :=
  let (negative, body) := splitSign c.rest
  let whole := wholeOf body
  if whole.isEmpty then none
  else
    let afterWhole := body.drop whole.length
    let fraction := fractionOf afterWhole
    let fractionSize := if fraction.isEmpty then 0 else fraction.length + 1
    let exponent := exponentOf (afterWhole.drop fractionSize)
    let size := (if negative then 1 else 0) + whole.length + fractionSize +
      (exponent.map (·.1)).getD 0
    let next : Cursor := ⟨c.rest.drop size, c.position + size⟩
    some <|
      if fraction.isEmpty && exponent.isNone then
        if whole.length > Numeral.maxDigits then .error (.misfit (.integerTooLong whole.length))
        else .ok (.int (Numeral.signed negative (Numeral.digitsValue whole)), next)
      else
        let shift := ((exponent.map (·.2)).getD 0) - fraction.length
        .ok (.float (.ofDecimal negative (Numeral.digitsValue (whole ++ fraction)) shift), next)

/-- The words that stand for values. -/
def words : List (List Char × Value) :=
  [("null".toList, .null), ("true".toList, .boolean true), ("false".toList, .boolean false),
   ("NaN".toList, .float .nan), ("Infinity".toList, .float (.infinite false)),
   ("-Infinity".toList, .float (.infinite true))]

def readWord? (c : Cursor) : Option (Value × Cursor) :=
  (words.find? fun w => w.1.isPrefixOf c.rest).map fun (w, v) =>
    (v, ⟨c.rest.drop w.length, c.position + w.length⟩)

mutual

/-- The value at the cursor, where `depth` is how deep collections may still be nested. `fuel`
bounds the nesting and the number of items together. -/
def readValue : Nat → Nat → Cursor → Except Stop (Value × Cursor)
  | 0, _, c => complain .value c.position
  | fuel + 1, depth, c =>
    match c.rest, depth with
    | '"' :: rest, _ => readString ⟨rest, c.position + 1⟩
    | '\x7b' :: _, 0 => .error (.misfit (.tooDeep true))
    | '[' :: _, 0 => .error (.misfit (.tooDeep false))
    | '\x7b' :: rest, depth + 1 => do
      let next := skipSpace ⟨rest, c.position + 1⟩
      match next.rest with
      | '\x7d' :: rest => return (.map [], ⟨rest, next.position + 1⟩)
      | _ =>
        let (es, next) ← readEntries fuel depth [] next
        return (.map es, next)
    | '[' :: rest, depth + 1 => do
      let next := skipSpace ⟨rest, c.position + 1⟩
      match next.rest with
      | ']' :: rest => return (.list [], ⟨rest, next.position + 1⟩)
      | _ =>
        let (vs, next) ← readItems fuel depth [] next
        return (.list vs, next)
    | _, _ =>
      match readWord? c with
      | some r => .ok r
      | none =>
        match readNumber? c with
        | some r => r
        | none => complain .value c.position

/-- The entries of a mapping from a key on, up to the closing brace. -/
def readEntries :
    Nat → Nat → List (Value × Value) → Cursor → Except Stop (List (Value × Value) × Cursor)
  | 0, _, _, c => complain .propertyName c.position
  | fuel + 1, depth, es, c =>
    match c.rest with
    | '"' :: rest => do
      let (key, next) ← readString ⟨rest, c.position + 1⟩
      let next := skipSpace next
      match next.rest with
      | ':' :: rest =>
        let (v, next) ← readValue fuel depth (skipSpace ⟨rest, next.position + 1⟩)
        let es := Value.put key v es
        let next := skipSpace next
        match next.rest with
        | '\x7d' :: rest => return (es, ⟨rest, next.position + 1⟩)
        | ',' :: rest => readEntries fuel depth es (skipSpace ⟨rest, next.position + 1⟩)
        | _ => complain .comma next.position
      | _ => complain .colon next.position
    | _ => complain .propertyName c.position

/-- The items of a list from one on, up to the closing bracket. -/
def readItems : Nat → Nat → List Value → Cursor → Except Stop (List Value × Cursor)
  | 0, _, _, c => complain .value c.position
  | fuel + 1, depth, vs, c => do
    let (v, next) ← readValue fuel depth c
    let next := skipSpace next
    match next.rest with
    | ']' :: rest => return ((v :: vs).reverse, ⟨rest, next.position + 1⟩)
    | ',' :: rest => readItems fuel depth (v :: vs) (skipSpace ⟨rest, next.position + 1⟩)
    | _ => complain .comma next.position

end

/-- Collections may not be nested deeper than this. -/
def maxDepth : Nat := 984

/-- Line and column, from one on, of a position. -/
def locate (cs : List Char) (position : Nat) : Nat × Nat :=
  let before := cs.take position
  (before.count '\n' + 1, (before.reverse.takeWhile (· ≠ '\n')).length + 1)

def readAll (cs : List Char) : Except Stop Value :=
  match cs with
  | '\ufeff' :: _ => complain .byteOrderMark 0
  | _ => do
    let (v, next) ← readValue (cs.length + 1) maxDepth (skipSpace ⟨cs, 0⟩)
    let next := skipSpace next
    if next.rest.isEmpty then return v else complain .extraData next.position

/-- The value that the text stands for. -/
def read (s : String) : Except ReadError Value :=
  match readAll s.toList with
  | .ok v => .ok v
  | .error (.misfit m) => .error (.misfit m)
  | .error (.complaint c position) =>
    let (line, column) := locate s.toList position
    .error (.flaw ⟨c, position, line, column⟩)

end Acceptance.Json

import Acceptance.Text.Quoted
/-!
UTF-8 text. Bytes that are no UTF-8 are refused with the place of the first fault.
-/
namespace Acceptance.Text

inductive Utf8Cause
  | invalidStart
  | invalidContinuation
  | unexpectedEnd
  deriving DecidableEq, Repr

def Utf8Cause.text : Utf8Cause → String
  | .invalidStart => "invalid start byte"
  | .invalidContinuation => "invalid continuation byte"
  | .unexpectedEnd => "unexpected end of data"

/-- A fault at a position that takes in `size` bytes, the first of which is given. -/
structure Utf8Error where
  cause : Utf8Cause
  position : Nat
  size : Nat
  byte : UInt8
  deriving DecidableEq, Repr

def Utf8Error.message (e : Utf8Error) : String :=
  if e.size = 1 then
    let shown := String.ofList (hex 2 e.byte.toNat)
    s!"'utf-8' codec can't decode byte 0x{shown} in position {e.position}: {e.cause.text}"
  else
    let last := e.position + e.size - 1
    s!"'utf-8' codec can't decode bytes in position {e.position}-{last}: {e.cause.text}"

/-- Which second bytes may follow a first byte. -/
def secondRange (first : Nat) : Nat × Nat :=
  if first = 0xe0 then (0xa0, 0xbf)
  else if first = 0xed then (0x80, 0x9f)
  else if first = 0xf0 then (0x90, 0xbf)
  else if first = 0xf4 then (0x80, 0x8f)
  else (0x80, 0xbf)

/-- How many bytes a sequence has that starts with a byte. -/
def sequenceSize? (first : Nat) : Option Nat :=
  if first < 0x80 then some 1
  else if 0xc2 ≤ first ∧ first < 0xe0 then some 2
  else if 0xe0 ≤ first ∧ first < 0xf0 then some 3
  else if 0xf0 ≤ first ∧ first < 0xf5 then some 4
  else none

/-- How many of the bytes continue a sequence, at most `wanted`, each within its range. -/
def continuations (range : Nat × Nat) : Nat → List UInt8 → Nat
  | 0, _ => 0
  | _, [] => 0
  | wanted + 1, b :: bs =>
    if range.1 ≤ b.toNat ∧ b.toNat ≤ range.2 then 1 + continuations (0x80, 0xbf) wanted bs else 0

/-- The first fault of the bytes from a position on. -/
def firstFault? : Nat → Nat → List UInt8 → Option Utf8Error
  | _, _, [] => none
  | 0, _, _ => none
  | fuel + 1, position, b :: bs =>
    match sequenceSize? b.toNat with
    | none => some ⟨.invalidStart, position, 1, b⟩
    | some size =>
      let good := continuations (secondRange b.toNat) (size - 1) bs
      if good = size - 1 then firstFault? fuel (position + size) (bs.drop good)
      else if good = bs.length then some ⟨.unexpectedEnd, position, 1 + good, b⟩
      else some ⟨.invalidContinuation, position, 1 + good, b⟩

def encode (s : String) : ByteArray := s.toUTF8

def decode (bytes : ByteArray) : Except Utf8Error String :=
  match String.fromUTF8? bytes with
  | some s => .ok s
  | none =>
    let list := bytes.toList
    .error ((firstFault? list.length 0 list).getD ⟨.invalidStart, 0, 1, 0⟩)

/-- The text without a byte order mark at its start. -/
def dropMark (s : String) : String :=
  match s.toList with
  | c :: cs => if c.toNat = 0xfeff then String.ofList cs else s
  | [] => s

/-- The byte order mark. -/
def mark : List UInt8 := [0xef, 0xbb, 0xbf]

/-- The bytes without a mark at their start, also if they break off within it. -/
def withoutMark (bytes : ByteArray) : ByteArray :=
  let list := bytes.toList
  if mark.isPrefixOf list then ⟨(list.drop 3).toArray⟩
  else if list.isPrefixOf mark then ⟨#[]⟩
  else bytes

end Acceptance.Text

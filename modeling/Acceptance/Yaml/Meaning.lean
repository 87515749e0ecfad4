import Acceptance.Text.Lower
import Acceptance.Value.Calendar
import Acceptance.Value.Numbers
import Acceptance.Yaml.Cursor
import Acceptance.Yaml.Tag
/-!
What scalars stand for, by their tags.
-/
namespace Acceptance.Yaml

open Text

/-- The truth value that a word names, whatever its case. -/
def truthOf (text : List Nat) : Except Failure Value :=
  let word := lowercase text
  match String.ofList (visible word) with
  | "yes" => .ok (.boolean true)
  | "true" => .ok (.boolean true)
  | "on" => .ok (.boolean true)
  | "no" => .ok (.boolean false)
  | "false" => .ok (.boolean false)
  | "off" => .ok (.boolean false)
  | _ => .error (.misfit (.missingKey (quotedPoints word)))

def orMisfit {α : Type} (r : Except Misfit α) : Except Failure α := r.mapError .misfit

def withoutLow (text : List Nat) : List Nat := text.filter (· ≠ '_'.toNat)

/-- The sign of a number and what follows it, of which there has to be something. -/
def splitSign (text : List Nat) : Except Failure (Bool × List Nat) :=
  match text with
  | [] => .error (.misfit .noItem)
  | n :: ps =>
    if n = '-'.toNat then .ok (true, ps)
    else if n = '+'.toNat then .ok (false, ps)
    else .ok (false, text)

/-- The places of a number in base sixty. -/
def sixtieths (text : List Nat) : List (List Nat) := splitAt ':'.toNat text

def integerOf (text : List Nat) : Except Failure Value := do
  let (negative, ds) ← splitSign (withoutLow text)
  let read := fun base ds => orMisfit (readInteger base ds)
  let n ← match visible ds with
    | [] => .error (.misfit .noItem)
    | ['0'] => pure 0
    | '0' :: 'b' :: _ => read 2 (ds.drop 2)
    | '0' :: 'x' :: _ => read 16 (ds.drop 2)
    | '0' :: _ => read 8 ds
    | cs =>
      if cs.contains ':' then do
        let parts ← (sixtieths ds).mapM (read 10)
        pure (parts.foldl (fun sum digit => 60 * sum + digit) 0)
      else read 10 ds
  return .int (if negative then -n else n)

/-- A sum of places in base sixty, from the lowest one up and rounded at every step. -/
def sexagesimal (parts : List Binary64) : Except Failure Binary64 := do
  let (sum, _) ← parts.reverse.foldlM (fun (sum, base) digit => do
    match Binary64.ofInt base with
    | .infinite _ => .error (.misfit .tooLarge)
    | b => pure (sum.add (digit.mul b), base * 60)) (Binary64.zero false, (1 : Int))
  return sum

/-- The words that name the special numbers, without a sign. -/
def isInfinityWord (text : List Nat) : Bool := visible text == ".inf".toList

def isNanWord (text : List Nat) : Bool := visible text == ".nan".toList

def floatOf (text : List Nat) : Except Failure Value := do
  let (negative, ds) ← splitSign (lowercase (withoutLow text))
  let x ←
    if isInfinityWord ds then pure (.infinite false)
    else if isNanWord ds then pure .nan
    else if (visible ds).contains ':' then do
      sexagesimal (← (sixtieths ds).mapM fun part => orMisfit (readFloat part))
    else orMisfit (readFloat ds)
  return .float (if negative then x.neg else x)

/-- Does the text name the number that is none by its word? All such are one and the same, while
each that is read from digits or otherwise differs from every other. -/
def namesNan (text : List Nat) : Bool :=
  match splitSign (lowercase (withoutLow text)) with
  | .ok (_, ds) => isNanWord ds
  | .error _ => false

/-! ### Times -/

def decimalOf (cs : List Char) : Nat := cs.foldl (fun n c => 10 * n + (c.toNat - 48)) 0

def complain {α : Type} (text : String) : Except Failure α := .error (.misfit (.calendar text))

def dateOf (year month day : Nat) : Except Failure Date :=
  if year = 0 then complain s!"year {year} is out of range"
  else if month = 0 ∨ month > 12 then complain "month must be in 1..12"
  else if day = 0 ∨ day > Date.daysIn year month then complain "day is out of range for month"
  else .ok ⟨year, month, day⟩

/-- The minutes that a zone is ahead of universal time. -/
def offsetOf (zone : List Char) : Except Failure (Option Int) :=
  match zone with
  | [] => .ok none
  | ['Z'] => .ok (some 0)
  | sign :: rest =>
    let parts := (splitAt ':' rest).map decimalOf
    let minutes : Int := 60 * parts.headD 0 + (parts.drop 1).headD 0
    let offset := if sign = '-' then -minutes else minutes
    if minutes < 1440 then .ok (some offset)
    else
      let shown := Value.commaJoin (Moment.offsetParts offset)
      complain (s!"offset must be a timedelta strictly between -timedelta(hours=24) and " ++
        s!"timedelta(hours=24), not datetime.timedelta({shown}).")

def microsOf (fraction : List Char) : Nat :=
  let ds := fraction.take 6
  decimalOf ds * Nat.pow 10 (6 - ds.length)

def timestampOf (text : List Nat) : Except Failure Value := do
  match Stamp.ofText? (withoutBreak (visible text)) with
  | none => .error (.misfit .noMember)
  | some s =>
    let date := dateOf (decimalOf s.year) (decimalOf s.month) (decimalOf s.day)
    match s.time with
    | none => return .date (← date)
    | some (hour, minute, second, fraction, zone) =>
      let offset ← offsetOf zone
      let date ← date
      let hour := decimalOf hour
      let minute := decimalOf minute
      let second := decimalOf second
      if hour > 23 then complain "hour must be in 0..23"
      else if minute > 59 then complain "minute must be in 0..59"
      else if second > 59 then complain "second must be in 0..59"
      else return .moment ⟨date, hour, minute, second, microsOf fraction, offset⟩

/-! ### Bytes -/

def sextet? (c : Char) : Option Nat :=
  let n := c.toNat
  if 'A' ≤ c && c ≤ 'Z' then some (n - 65)
  else if 'a' ≤ c && c ≤ 'z' then some (n - 71)
  else if '0' ≤ c && c ≤ '9' then some (n + 4)
  else if c = '+' then some 62
  else if c = '/' then some 63
  else none

/-- The bytes of a base 64 text. Other characters are skipped; `held` has the sextets of the group
that is not full yet, and `pads` counts the signs that fill it up. -/
def base64From (held : List Nat) (pads : Nat) : List Char → Option (List UInt8)
  | [] => if held = [] then some [] else none
  | c :: cs =>
    if c = '=' then
      if held.length ≥ 2 ∧ held.length + pads + 1 ≥ 4 then some [] else
        base64From held (if held.length ≥ 2 then pads + 1 else pads) cs
    else
      match sextet? c, held with
      | none, _ => base64From held pads cs
      | some v, [] => base64From [v] 0 cs
      | some v, [a] => (base64From [a, v] 0 cs).map ((a * 4 + v / 16).toUInt8 :: ·)
      | some v, [a, b] => (base64From [a, b, v] 0 cs).map ((b % 16 * 16 + v / 4).toUInt8 :: ·)
      | some v, _ :: _ :: c :: _ => (base64From [] 0 cs).map ((c % 4 * 64 + v).toUInt8 :: ·)

def bytesOf (text : List Nat) : Except Failure Value :=
  if text.any (· ≥ 128) then .error .malformed
  else
    match base64From [] 0 (visible text) with
    | some bytes => .ok (.bytes bytes)
    | none => .error .malformed

def scalarValue (tag : Tag) (text : List Nat) : Except Failure Value :=
  match tag with
  | .text => .ok (.ofPoints text)
  | .null => .ok .null
  | .truth => truthOf text
  | .integer => integerOf text
  | .float => floatOf text
  | .timestamp => timestampOf text
  | .binary => bytesOf text
  | _ => .error .malformed

end Acceptance.Yaml

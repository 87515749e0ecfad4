import Acceptance.Number.Binary64
import Acceptance.Text.Digit
/-!
Numerals: an optional minus sign, digits of any script, and an optional fraction of a point and
digits. Without a fraction they stand for integers, with one for binary64 numbers.
-/
namespace Acceptance

open Text

structure Numeral where
  negative : Bool
  whole : List Char
  fraction : Option (List Char)
  deriving DecidableEq, Repr

namespace Numeral

def digitsValue (ds : List Char) : Nat :=
  ds.foldl (fun n c => 10 * n + (digitValue? c).getD 0) 0

/-- The fraction that the text starts with, and the rest. -/
def takeFraction (cs : List Char) : Option (List Char) × List Char :=
  match cs with
  | '.' :: rest =>
    if (rest.takeWhile isDigit).isEmpty then (none, cs)
    else (some (rest.takeWhile isDigit), rest.dropWhile isDigit)
  | _ => (none, cs)

/-- The longest numeral without a sign that the text starts with, and the rest. -/
def takeUnsigned? (negative : Bool) (cs : List Char) : Option (Numeral × List Char) :=
  if (cs.takeWhile isDigit).isEmpty then none
  else
    let (fraction, rest) := takeFraction (cs.dropWhile isDigit)
    some (⟨negative, cs.takeWhile isDigit, fraction⟩, rest)

/-- The longest numeral that the text starts with, and the rest. -/
def take? : List Char → Option (Numeral × List Char)
  | '-' :: cs => takeUnsigned? true cs
  | cs => takeUnsigned? false cs

/-- The numeral that the whole text is. -/
def ofText? (cs : List Char) : Option Numeral :=
  match take? cs with
  | some (n, []) => some n
  | _ => none

/-- Longer digit texts are not read as integers. -/
def maxDigits : Nat := 4300

def signed (negative : Bool) (n : Nat) : Int := if negative then -n else n

/-- The binary64 number nearest to the numeral. -/
def toBinary64 (n : Numeral) : Binary64 :=
  let fraction := n.fraction.getD []
  Binary64.ofDecimal n.negative (digitsValue (n.whole ++ fraction)) (-fraction.length)

end Numeral
end Acceptance

import Acceptance.Number.Binary64
/-!
The decimal text of a binary64 number: the fewest digits that read back as the number, and of those
the nearest.
-/
namespace Acceptance.Binary64

/-- A decimal `digits · 10^exponent`. -/
structure Decimal where
  digits : Nat
  exponent : Int
  deriving DecidableEq, Repr

/-- Every finite number is a decimal. -/
def exactDecimal (m : Nat) (e : Int) : Decimal :=
  if e ≥ 0 then ⟨m * Nat.pow 2 e.toNat, 0⟩ else ⟨m * Nat.pow 5 (-e).toNat, e⟩

/-- The decimals just below and just above `d` with at most `count` digits, `count` being less than
the number of its digits. The third part tells how the lower one's distance compares. -/
def neighbours (d : Decimal) (count : Nat) : Decimal × Decimal × Ordering :=
  let dropped := (Nat.toDigits 10 d.digits).length - count
  let unit := Nat.pow 10 dropped
  let low := d.digits / unit
  let exponent := d.exponent + dropped
  (⟨low, exponent⟩, ⟨low + 1, exponent⟩, compare (2 * (d.digits % unit)) unit)

def readsBack (x : Binary64) (d : Decimal) : Bool := ofDecimal false d.digits d.exponent == x

/-- The nearest decimal of `count` digits that reads back as `x`, whose exact value is `d`. -/
def withDigits? (x : Binary64) (d : Decimal) (count : Nat) : Option Decimal :=
  let (low, high, order) := neighbours d count
  match readsBack x low, readsBack x high with
  | true, true =>
    some (match order with
      | .lt => low
      | .gt => high
      | .eq => if low.digits % 2 = 0 then low else high)
  | true, false => some low
  | false, true => some high
  | false, false => none

/-- The shortest decimal of at most seventeen digits that reads back; a number with fewer digits is
its own, and seventeen digits always suffice. -/
def shortest (m : Nat) (e : Int) : Decimal :=
  let exact := exactDecimal m e
  let x := Binary64.finite false m e
  let counts := (List.range 17).map (· + 1)
  let short := counts.filter (· < (Nat.toDigits 10 exact.digits).length)
  (short.findSome? (withDigits? x exact)).getD exact

/-- How a decimal is laid out: positional with the point after at most `positionalMax` and more
than `positionalMin` places, else with an exponent of at least `exponentWidth` digits. -/
structure Layout where
  positionalMin : Int
  positionalMax : Int
  exponentWidth : Nat

/-- Data and sources write numbers from 10⁻⁴ up to 10¹⁶ positionally, always with a digit after the
point, and others with a signed exponent of two digits or more. -/
def plainLayout : Layout := ⟨-4, 16, 2⟩

def zeros (n : Nat) : List Char := List.replicate n '0'

def Layout.exponentText (l : Layout) (k : Int) : List Char :=
  let ds := Nat.toDigits 10 k.natAbs
  (if k < 0 then '-' else '+') :: zeros (l.exponentWidth - ds.length) ++ ds

/-- The text of the decimal `0.ds · 10^point`; `ds` has no zeros at its end. -/
def Layout.text (l : Layout) (ds : List Char) (point : Int) : List Char :=
  if l.positionalMin < point ∧ point ≤ l.positionalMax then
    if point ≤ 0 then '0' :: '.' :: zeros (-point).toNat ++ ds
    else if ds.length ≤ point.toNat then ds ++ zeros (point.toNat - ds.length) ++ ['.', '0']
    else ds.take point.toNat ++ '.' :: ds.drop point.toNat
  else
    let fraction := if ds.length ≤ 1 then [] else '.' :: ds.drop 1
    ds.take 1 ++ fraction ++ 'e' :: l.exponentText (point - 1)

def trimZeros (ds : List Char) : List Char := (ds.reverse.dropWhile (· = '0')).reverse

def Layout.decimal (l : Layout) (d : Decimal) : List Char :=
  let ds := Nat.toDigits 10 d.digits
  if d.digits = 0 then ['0', '.', '0'] else l.text (trimZeros ds) (ds.length + d.exponent)

/-- The number in a source or a report. -/
def text : Binary64 → String
  | .nan => "nan"
  | .infinite negative => if negative then "-inf" else "inf"
  | .finite negative m e =>
    let body := String.ofList (plainLayout.decimal (shortest m e))
    if negative then "-" ++ body else body

end Acceptance.Binary64

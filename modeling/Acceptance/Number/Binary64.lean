/-!
Binary64 numbers, exactly: not a number, an infinity, or `±m·2^e`. The finite numbers that arise
have `m < 2^53`, and `e` is as small as that and `-1074 ≤ e` allow, so equal numbers of one sign are
equal as values. Reading rounds to the nearest number, a half to the even one.
-/
namespace Acceptance

inductive Binary64
  | nan
  | infinite (negative : Bool)
  | finite (negative : Bool) (m : Nat) (e : Int)
  deriving DecidableEq, Repr, Inhabited

namespace Binary64

def zero (negative : Bool) : Binary64 := .finite negative 0 (-1074)

/-- Numerator and denominator of `num / den · 2^(-e)`. -/
def scaled (num den : Nat) (e : Int) : Nat × Nat :=
  if e ≥ 0 then (num, den * Nat.pow 2 e.toNat) else (num * Nat.pow 2 (-e).toNat, den)

/-- The quotient, rounded to the nearest integer and a half to the even one. -/
def roundQuotient (num den : Nat) : Nat :=
  let q := num / den
  let r := num % den
  if 2 * r < den then q else if 2 * r > den then q + 1 else q + q % 2

/-- The exponent for which the quotient has 53 binary places, and -1074 below the normal range. -/
def exponentFor (num den : Nat) : Int :=
  let e : Int := num.log2 - den.log2 - 52
  let (n, d) := scaled num den e
  let e := if n < Nat.pow 2 52 * d then e - 1 else e
  max e (-1074)

/-- The number nearest to `num / den`. -/
def ofRatio (negative : Bool) (num den : Nat) : Binary64 :=
  if num = 0 then zero negative
  else
    let e := exponentFor num den
    let (n, d) := scaled num den e
    let m := roundQuotient n d
    let (m, e) := if m = Nat.pow 2 53 then (Nat.pow 2 52, e + 1) else (m, e)
    if e > 971 then .infinite negative else .finite negative m e

/-- The number nearest to `digits · 10^exponent`. Beyond 310 places before the point all decimals
are infinite, and with 330 zeros behind it all are zero. -/
def ofDecimal (negative : Bool) (digits : Nat) (exponent : Int) : Binary64 :=
  let places : Int := (Nat.toDigits 10 digits).length + exponent
  if digits = 0 then zero negative
  else if places > 310 then .infinite negative
  else if places < -330 then zero negative
  else if exponent ≥ 0 then ofRatio negative (digits * Nat.pow 10 exponent.toNat) 1
  else ofRatio negative digits (Nat.pow 10 (-exponent).toNat)

def ofInt (n : Int) : Binary64 := ofRatio (n < 0) n.natAbs 1

/-- The number nearest to `±m·2^e`. -/
def ofScaled (negative : Bool) (m : Nat) (e : Int) : Binary64 :=
  if e ≥ 0 then ofRatio negative (m * Nat.pow 2 e.toNat) 1
  else ofRatio negative m (Nat.pow 2 (-e).toNat)

def isZero : Binary64 → Bool
  | .finite _ m _ => m == 0
  | _ => false

def isNegative : Binary64 → Bool
  | .nan => false
  | .infinite negative => negative
  | .finite negative _ _ => negative

def neg : Binary64 → Binary64
  | .nan => .nan
  | .infinite negative => .infinite !negative
  | .finite negative m e => .finite (!negative) m e

def mul : Binary64 → Binary64 → Binary64
  | .finite s m e, .finite t n f => ofScaled (s != t) (m * n) (e + f)
  | .nan, _ => .nan
  | _, .nan => .nan
  | x, y => if x.isZero || y.isZero then .nan else .infinite (x.isNegative != y.isNegative)

def add : Binary64 → Binary64 → Binary64
  | .finite s m e, .finite t n f =>
    let low := min e f
    let signed := fun (negative : Bool) (m : Nat) (e : Int) =>
      let shifted : Int := m * Nat.pow 2 (e - low).toNat
      if negative then -shifted else shifted
    let sum := signed s m e + signed t n f
    ofScaled (if sum = 0 then s && t else sum < 0) sum.natAbs low
  | .infinite s, .infinite t => if s = t then .infinite s else .nan
  | .nan, _ => .nan
  | _, .nan => .nan
  | .infinite s, _ => .infinite s
  | _, .infinite t => .infinite t

/-- Order relative to an integer; not a number has none. -/
def compareInt? (x : Binary64) (n : Int) : Option Ordering :=
  match x with
  | .nan => none
  | .infinite negative => some (if negative then .lt else .gt)
  | .finite negative m e =>
    let signed : Int := if negative then -m else m
    some <| if e ≥ 0 then compare (signed * Nat.pow 2 e.toNat) n
      else compare signed (n * Nat.pow 2 (-e).toNat)

/-- Equality of numbers: the two zeros are equal, and what is not a number is equal to none. -/
def sameNumber : Binary64 → Binary64 → Bool
  | .finite s m e, .finite t n f => (m == 0 && n == 0) || (s == t && m == n && e == f)
  | .infinite s, .infinite t => s == t
  | _, _ => false

/-- The integer next to the number in the direction of zero. -/
def truncate? : Binary64 → Option Int
  | .finite negative m e =>
    let whole : Nat := if e ≥ 0 then m * Nat.pow 2 e.toNat else m / Nat.pow 2 (-e).toNat
    some (if negative then -whole else whole)
  | _ => none

example : ofDecimal false 1 0 = .finite false (2 ^ 52) (-52) := by decide
example : ofDecimal false 5 (-324) = .finite false 1 (-1074) := by decide +kernel
example : ofDecimal true 1 400 = .infinite true := by decide +kernel
example : (ofDecimal true 19 (-1)).truncate? = some (-1) := by decide +kernel

end Binary64
end Acceptance

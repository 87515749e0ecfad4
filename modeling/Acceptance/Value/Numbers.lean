import Acceptance.Value.Access
/-!
Numbers read from texts: digits of any script, underscores between digits, and space around.
-/
namespace Acceptance

open Text

/-- White space that may stand around a number. -/
def isPadding (c : Char) : Bool :=
  if c.toNat < 128 then (9 ≤ c.toNat && c.toNat ≤ 13) || c == ' ' else isBlank c

def trimPadding (cs : List Char) : List Char :=
  ((cs.dropWhile isPadding).reverse.dropWhile isPadding).reverse

/-- The value of a digit in a base up to sixteen. -/
def digitIn? (base : Nat) (c : Char) : Option Nat :=
  let n := c.toNat
  let value :=
    if 'a' ≤ c && c ≤ 'f' then some (n - 87)
    else if 'A' ≤ c && c ≤ 'F' then some (n - 55)
    else digitValue? c
  value.filter (· < base)

/-- The sign of a number and what follows it. -/
def takeSign : List Char → Bool × List Char
  | '-' :: cs => (true, cs)
  | '+' :: cs => (false, cs)
  | cs => (false, cs)

/-- Drops the mark of a base, and one underscore behind it. -/
def dropBaseMark (base : Nat) (cs : List Char) : List Char :=
  let mark := match base with
    | 2 => 'b'
    | 8 => 'o'
    | 16 => 'x'
    | _ => '0'
  match cs with
  | '0' :: c :: '_' :: rest => if base ≠ 10 ∧ c.toLower = mark then rest else cs
  | '0' :: c :: rest => if base ≠ 10 ∧ c.toLower = mark then rest else cs
  | _ => cs

/-- Are the underscores all single ones between digits? -/
def underscoresFit (isDigit : Char → Bool) : Bool → List Char → Bool
  | _, [] => true
  | afterDigit, '_' :: cs =>
    match cs with
    | c :: _ => afterDigit && isDigit c && underscoresFit isDigit false cs
    | [] => false
  | _, c :: cs => underscoresFit isDigit (isDigit c) cs

/-- The integer that the text of code points writes in a base. Where the base is ten, the number of
digits is limited. -/
def readInteger (base : Nat) (text : List Nat) : Except Misfit Int :=
  let wrong := Misfit.notAnInteger base (String.ofList ((quotePoints text).take 200))
  let (negative, cs) := takeSign (trimPadding (visible text))
  let cs := dropBaseMark base cs
  let isDigit := fun c => (digitIn? base c).isSome
  let run := cs.takeWhile fun c => isDigit c || c == '_'
  let digits := run.filterMap (digitIn? base)
  if digits = [] ∨ ¬underscoresFit isDigit false run then .error wrong
  else if base = 10 ∧ digits.length > Numeral.maxDigits then .error (.integerTooLong digits.length)
  else if run.length < cs.length then .error wrong
  else .ok (Numeral.signed negative (digits.foldl (fun n d => base * n + d) 0))

/-- The exponent that a text ends with. -/
def readExponent? : List Char → Option Int
  | [] => some 0
  | c :: cs =>
    if c.toLower = 'e' then
      let (negative, ds) := takeSign cs
      if ds ≠ [] ∧ ds.all isDigit then some (Numeral.signed negative (Numeral.digitsValue ds))
      else none
    else none

def readDecimal? (negative : Bool) (cs : List Char) : Option Binary64 := do
  let whole := cs.takeWhile isDigit
  let (fraction, rest) := match cs.dropWhile isDigit with
    | '.' :: rest => (rest.takeWhile isDigit, rest.dropWhile isDigit)
    | rest => ([], rest)
  if whole = [] ∧ fraction = [] then none
  let exponent ← readExponent? rest
  return .ofDecimal negative (Numeral.digitsValue (whole ++ fraction)) (exponent - fraction.length)

/-- The binary64 number nearest to what the text of code points writes, or the special number that
it names. -/
def readFloat (text : List Nat) : Except Misfit Binary64 :=
  let trimmed := trimPadding (visible text)
  let (negative, cs) := takeSign (trimmed.filter (· ≠ '_'))
  let read? :=
    if ¬underscoresFit isDigit false trimmed then none
    else
      match String.ofList (cs.map Char.toLower) with
      | "inf" => some (.infinite negative)
      | "infinity" => some (.infinite negative)
      | "nan" => some .nan
      | _ => readDecimal? negative cs
  match read? with
  | some x => .ok x
  | none => .error (.notAFloat (quotedPoints text))

/-- The integer that a value stands for; fractions are cut off. -/
def Value.toInteger : Value → Except Misfit Int
  | .int n => .ok n
  | .boolean b => .ok (if b then 1 else 0)
  | .text s => readInteger 10 (points s)
  | .torn ps => readInteger 10 ps
  | .float x =>
    match x.truncate?, x with
    | some n, _ => .ok n
    | none, .nan => .error .notANumber
    | none, _ => .error .tooLarge
  | _ => .error .wrongKind

/-- How a value stands to a number. A value that is no number stands to none. -/
def Value.compareInt (v : Value) (n : Int) : Except Misfit (Option Ordering) :=
  match v with
  | .int m => .ok (some (compare m n))
  | .boolean b => .ok (some (compare (if b then 1 else 0) n))
  | .float x => .ok (x.compareInt? n)
  | _ => .error .wrongKind

end Acceptance

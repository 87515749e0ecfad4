import Acceptance.Text.Search
/-!
Tags of YAML nodes. A plain scalar without a tag gets one by its looks.
-/
namespace Acceptance.Yaml

inductive Tag
  | text
  | null
  | truth
  | integer
  | float
  | timestamp
  | binary
  | merge
  | default
  | sequence
  | mapping
  | set
  | ordered
  | pairs
  | other (name : String)
  deriving DecidableEq, Repr, Inhabited

def Tag.ofName : String → Tag
  | "tag:yaml.org,2002:str" => .text
  | "tag:yaml.org,2002:null" => .null
  | "tag:yaml.org,2002:bool" => .truth
  | "tag:yaml.org,2002:int" => .integer
  | "tag:yaml.org,2002:float" => .float
  | "tag:yaml.org,2002:timestamp" => .timestamp
  | "tag:yaml.org,2002:binary" => .binary
  | "tag:yaml.org,2002:merge" => .merge
  | "tag:yaml.org,2002:value" => .default
  | "tag:yaml.org,2002:seq" => .sequence
  | "tag:yaml.org,2002:map" => .mapping
  | "tag:yaml.org,2002:set" => .set
  | "tag:yaml.org,2002:omap" => .ordered
  | "tag:yaml.org,2002:pairs" => .pairs
  | name => .other name

/-! ### The looks of plain scalars -/

def truthWords : List String :=
  ["yes", "Yes", "YES", "no", "No", "NO", "true", "True", "TRUE", "false", "False", "FALSE", "on",
   "On", "ON", "off", "Off", "OFF"]

def nullWords : List String := ["~", "null", "Null", "NULL", ""]

/-- Signs that stand for parts of the notation itself. -/
def indicators : List String := ["!", "&", "*"]

def isDecimal (c : Char) : Bool := '0' ≤ c && c ≤ '9'

def isDecimalOrLow (c : Char) : Bool := isDecimal c || c == '_'

def dropSign : List Char → List Char
  | '-' :: cs => cs
  | '+' :: cs => cs
  | cs => cs

/-- Not empty, and all of a class. -/
def isRun (f : Char → Bool) (cs : List Char) : Bool := !cs.isEmpty && cs.all f

/-- Digits and underscores, a digit first. -/
def isDigitRun : List Char → Bool
  | c :: cs => isDecimal c && cs.all isDecimalOrLow
  | [] => false

/-- A number below sixty of one or two digits. -/
def isSixtieth : List Char → Bool
  | [c] => isDecimal c
  | [c, d] => '0' ≤ c && c ≤ '5' && isDecimal d
  | _ => false

def looksLikeInteger (cs : List Char) : Bool :=
  match dropSign cs with
  | ['0'] => true
  | '0' :: 'b' :: ds => isRun (fun c => c == '0' || c == '1' || c == '_') ds
  | '0' :: 'x' :: ds =>
    isRun (fun c => isDecimalOrLow c || ('a' ≤ c && c ≤ 'f') || ('A' ≤ c && c ≤ 'F')) ds
  | '0' :: ds => isRun (fun c => ('0' ≤ c && c ≤ '7') || c == '_') ds
  | ds =>
    match Text.splitAt ':' ds with
    | first :: rest => isDigitRun first && rest.all isSixtieth
    | [] => false

/-- A signed exponent, or nothing. -/
def isExponent : List Char → Bool
  | [] => true
  | c :: sign :: ds => (c == 'e' || c == 'E') && (sign == '-' || sign == '+') && isRun isDecimal ds
  | _ => false

/-- Digits and underscores, then perhaps an exponent. -/
def isFraction (cs : List Char) : Bool := isExponent (cs.dropWhile isDecimalOrLow)

def infinities : List String := [".inf", ".Inf", ".INF"]

def noNumbers : List String := [".nan", ".NaN", ".NAN"]

def looksLikeFloat (cs : List Char) : Bool :=
  let ds := dropSign cs
  let sexagesimal :=
    match Text.splitAt ':' (ds.takeWhile (· ≠ '.')), ds.dropWhile (· ≠ '.') with
    | first :: part :: parts, '.' :: rest =>
      isDigitRun first && (part :: parts).all isSixtieth && rest.all isDecimalOrLow
    | _, _ => false
  let decimal :=
    match ds.takeWhile isDecimalOrLow, ds.dropWhile isDecimalOrLow with
    | whole, '.' :: rest => isDigitRun whole && isFraction rest
    | _, _ => false
  let fraction :=
    match cs with
    | '.' :: c :: rest => isDecimal c && isFraction rest
    | _ => false
  sexagesimal || decimal || fraction || infinities.contains (String.ofList ds) ||
    noNumbers.contains (String.ofList cs)

/-! ### Times -/

/-- The parts of a time, as they are written. -/
structure Stamp where
  year : List Char
  month : List Char
  day : List Char
  /-- Hour, minute, second, fraction and zone. -/
  time : Option (List Char × List Char × List Char × List Char × List Char)

/-- Between so many and so many digits at the start, and the rest. -/
def takeDigits? (least most : Nat) (cs : List Char) : Option (List Char × List Char) :=
  let ds := (cs.takeWhile isDecimal).take most
  if ds.length < least then none else some (ds, cs.drop ds.length)

def isBlankChar (c : Char) : Bool := c == ' ' || c == '\t'

/-- An offset from universal time, or none. -/
def isZone (cs : List Char) : Bool :=
  match cs with
  | [] => true
  | ['Z'] => true
  | sign :: rest =>
    (sign == '-' || sign == '+') &&
      match Text.splitAt ':' rest with
      | [hour] => isRun isDecimal hour && hour.length ≤ 2
      | [hour, minute] =>
        isRun isDecimal hour && hour.length ≤ 2 && isRun isDecimal minute && minute.length = 2
      | _ => false

/-- What divides the date from the time: a letter, or blanks. -/
def afterDate? : List Char → Option (List Char)
  | 'T' :: cs => some cs
  | 't' :: cs => some cs
  | c :: cs => if isBlankChar c then some (cs.dropWhile isBlankChar) else none
  | [] => none

def Stamp.ofText? (cs : List Char) : Option Stamp := do
  let (year, cs) ← takeDigits? 4 4 cs
  let '-' :: cs := cs | none
  let (month, cs) ← takeDigits? 1 2 cs
  let '-' :: cs := cs | none
  let (day, cs) ← takeDigits? 1 2 cs
  if cs = [] then return ⟨year, month, day, none⟩
  let (hour, cs) ← takeDigits? 1 2 (← afterDate? cs)
  let ':' :: cs := cs | none
  let (minute, cs) ← takeDigits? 2 2 cs
  let ':' :: cs := cs | none
  let (second, cs) ← takeDigits? 2 2 cs
  let (fraction, cs) := match cs with
    | '.' :: cs => (cs.takeWhile isDecimal, cs.dropWhile isDecimal)
    | cs => ([], cs)
  let zone := cs.dropWhile isBlankChar
  if cs ≠ [] ∧ zone = [] then none
  if isZone zone then some ⟨year, month, day, some (hour, minute, second, fraction, zone)⟩ else none

/-- A line feed at the end does not count for the looks of a text. -/
def withoutBreak (cs : List Char) : List Char :=
  match cs.reverse with
  | '\n' :: c :: rest => (c :: rest).reverse
  | _ => cs

/-- A date without a time is only recognised with two digits for month and day. -/
def looksLikeStamp (cs : List Char) : Bool :=
  match Stamp.ofText? cs with
  | some s => s.time.isSome || (s.month.length = 2 && s.day.length = 2)
  | none => false

/-- The tag that a plain scalar has by its looks. -/
def Tag.ofPlain (text : List Char) : Tag :=
  let cs := withoutBreak text
  let s := String.ofList cs
  if truthWords.contains s then .truth
  else if looksLikeFloat cs then .float
  else if looksLikeInteger cs then .integer
  else if s = "<<" then .merge
  else if nullWords.contains s then .null
  else if looksLikeStamp cs then .timestamp
  else if s = "=" then .default
  else if indicators.contains s then .other "tag:yaml.org,2002:yaml"
  else .text

end Acceptance.Yaml

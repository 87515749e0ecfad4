import Acceptance.Number.Shortest
import Acceptance.Text.Phrase
import Acceptance.Value.Basic
/-!
The text of data: `literal` writes a value as a source literal, `display` as a message shows it.
The two differ on texts, which a message shows as they are, and on dates.
-/
namespace Acceptance

/-- The decimal text of `n`, with zeros in front up to `width` digits. -/
def padded (width n : Nat) : String :=
  let ds := Nat.toDigits 10 n
  String.ofList (List.replicate (width - ds.length) '0' ++ ds)

namespace Date

def iso (d : Date) : String := s!"{padded 4 d.year}-{padded 2 d.month}-{padded 2 d.day}"

def literal (d : Date) : String := s!"datetime.date({d.year}, {d.month}, {d.day})"

end Date

namespace Moment

/-- Days and seconds of an offset; the seconds are not negative. -/
def offsetParts (minutes : Int) : List String :=
  let seconds := minutes * 60
  let days := seconds.fdiv 86400
  let rest := seconds.fmod 86400
  (if days = 0 then [] else [s!"days={days}"]) ++ (if rest = 0 then [] else [s!"seconds={rest}"])

def offsetLiteral (minutes : Int) : String :=
  if minutes = 0 then "datetime.timezone.utc"
  else
    let parts := String.intercalate ", " (offsetParts minutes)
    s!"datetime.timezone(datetime.timedelta({parts}))"

def literal (m : Moment) : String :=
  let day := s!"{m.date.year}, {m.date.month}, {m.date.day}, {m.hour}, {m.minute}"
  let time :=
    if m.micro ≠ 0 then s!"{day}, {m.second}, {m.micro}"
    else if m.second ≠ 0 then s!"{day}, {m.second}"
    else day
  match m.offset with
  | none => s!"datetime.datetime({time})"
  | some o => s!"datetime.datetime({time}, tzinfo={offsetLiteral o})"

def offsetIso (minutes : Int) : String :=
  let n := minutes.natAbs
  (if minutes < 0 then "-" else "+") ++ padded 2 (n / 60) ++ ":" ++ padded 2 (n % 60)

def iso (m : Moment) : String :=
  let time := s!"{m.date.iso} {padded 2 m.hour}:{padded 2 m.minute}:{padded 2 m.second}"
  let time := if m.micro = 0 then time else time ++ "." ++ padded 6 m.micro
  match m.offset with
  | none => time
  | some o => time ++ offsetIso o

end Moment

namespace Value

def byteChar (b : UInt8) : Char := Char.ofNat b.toNat

/-- A byte inside quotes; bytes outside ASCII are written by number. -/
def escapeByte (quote : Char) (b : UInt8) : List Char :=
  if b < 0x80 then Text.escapeChar quote (byteChar b) else '\\' :: 'x' :: Text.hex 2 b.toNat

def bytesLiteral (bs : List UInt8) : String :=
  let q := Text.quoteFor (bs.map byteChar)
  String.ofList ('b' :: q :: bs.flatMap (escapeByte q) ++ [q])

def commaJoin (parts : List String) : String := String.intercalate ", " parts

/-- What stands for a collection inside itself. -/
def ellipsis (isMap : Bool) : String := if isMap then "\x7b...\x7d" else "[...]"

mutual

/-- The literal of a value inside the knots with the given labels. -/
def literalIn (labels : List Nat) : Value → String
  | .null => "None"
  | .boolean b => if b then "True" else "False"
  | .int n => toString n
  | .float x => x.text
  | .text s => Text.quoted s
  | .torn ps => Text.quotedPoints ps
  | .bytes bs => bytesLiteral bs
  | .date d => d.literal
  | .moment m => m.literal
  | .list vs => "[" ++ commaJoin (literals labels vs) ++ "]"
  | .tuple [v] => "(" ++ literalIn labels v ++ ",)"
  | .tuple vs => "(" ++ commaJoin (literals labels vs) ++ ")"
  | .set [] => "set()"
  | .set (v :: vs) => "\x7b" ++ commaJoin (literalIn labels v :: literals labels vs) ++ "\x7d"
  | .map es => "\x7b" ++ commaJoin (entryLiterals labels es) ++ "\x7d"
  | .knot label v =>
    if labels.contains label then ellipsis v.isMap else literalIn (label :: labels) v
  | .loop _ isMap => ellipsis isMap

def literals (labels : List Nat) : List Value → List String
  | [] => []
  | v :: vs => literalIn labels v :: literals labels vs

def entryLiterals (labels : List Nat) : List (Value × Value) → List String
  | [] => []
  | (k, v) :: es =>
    (literalIn labels k ++ ": " ++ literalIn labels v) :: entryLiterals labels es

end

def literal (v : Value) : String := literalIn [] v

def display : Value → String
  | .text s => s
  | .torn ps => String.ofList (Text.visible ps)
  | .date d => d.iso
  | .moment m => m.iso
  | v => literal v

/-- What is shown of a value, with halves of surrogate pairs as they are. -/
def phrase : Value → Phrase
  | .torn ps => ⟨ps⟩
  | v => v.display

/-- The text that a phrase is. -/
def ofPhrase (p : Phrase) : Value := ofPoints p.points

@[simp] theorem display_text (s : String) : display (.text s) = s := rfl

@[simp] theorem literal_text (s : String) : literal (.text s) = Text.quoted s := by
  simp [literal, literalIn]

/-! ### Numbers that are too long -/

/-- The least number with more digits than may be shown. -/
def tooLong : Nat := Nat.pow 10 Numeral.maxDigits

mutual

/-- Can all numbers in the data be shown? -/
def isShowable : Value → Bool
  | .int n => n.natAbs < tooLong
  | .list vs => areShowable vs
  | .tuple vs => areShowable vs
  | .set vs => areShowable vs
  | .map es => entriesAreShowable es
  | .knot _ v => v.isShowable
  | _ => true

def areShowable : List Value → Bool
  | [] => true
  | v :: vs => v.isShowable && areShowable vs

def entriesAreShowable : List (Value × Value) → Bool
  | [] => true
  | (k, v) :: es => k.isShowable && v.isShowable && entriesAreShowable es

end

end Value
end Acceptance

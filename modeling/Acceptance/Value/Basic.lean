import Acceptance.Literal
import Acceptance.Text.Points
/-!
Plain data, as data files hold it. A mapping keeps its entries in the order in which their keys
first came. A data file can make a collection a part of itself; then the collection is a `knot`, and
a `loop` inside stands for the whole again.
-/
namespace Acceptance

structure Date where
  year : Nat
  month : Nat
  day : Nat
  deriving DecidableEq, Repr

/-- A time of day on a date. The offset from universal time is in minutes, if it is given. -/
structure Moment where
  date : Date
  hour : Nat
  minute : Nat
  second : Nat
  micro : Nat
  offset : Option Int
  deriving DecidableEq, Repr

inductive Value
  | null
  | boolean (b : Bool)
  | int (n : Int)
  | float (x : Binary64)
  | text (s : String)
  /-- A text with halves of surrogate pairs, by its code points. -/
  | torn (points : List Nat)
  | bytes (bs : List UInt8)
  | date (d : Date)
  | moment (m : Moment)
  | list (items : List Value)
  | tuple (items : List Value)
  | set (items : List Value)
  | map (entries : List (Value × Value))
  | knot (label : Nat) (whole : Value)
  | loop (label : Nat) (isMap : Bool)
  deriving Repr, Inhabited

namespace Value

def ofLiteral : Literal → Value
  | .text s => .text s
  | .torn ps => .torn ps
  | .int n => .int n
  | .float x => .float x
  | .boolean b => .boolean b

/-- The text of code points. -/
def ofPoints (ps : List Nat) : Value :=
  match Text.ofPoints? ps with
  | some s => .text s
  | none => .torn ps

/-- A mapping with text keys. -/
def record (fields : List (String × Value)) : Value := .map (fields.map fun (k, v) => (.text k, v))

def texts (ss : List String) : Value := .list (ss.map .text)

/-- A value, or nothing. -/
def orNull (v : Option Value) : Value := v.getD .null

def text? : Value → Option String
  | .text s => some s
  | _ => none

/-- What stands under a text key. -/
def lookup? (key : String) : List (Value × Value) → Option Value
  | [] => none
  | (.text k, v) :: rest => if k = key then some v else lookup? key rest
  | _ :: rest => lookup? key rest

/-- Everything but nothing, false, zero and the empty collections. -/
def isTruthy : Value → Bool
  | .null => false
  | .boolean b => b
  | .int n => n != 0
  | .float x => !x.isZero
  | .text s => s != ""
  | .bytes bs => !bs.isEmpty
  | .list vs => !vs.isEmpty
  | .tuple vs => !vs.isEmpty
  | .set vs => !vs.isEmpty
  | .map es => !es.isEmpty
  | .knot _ v => v.isTruthy
  | _ => true

def isMap : Value → Bool
  | .map _ => true
  | .knot _ v => v.isMap
  | _ => false

/-! ### Data that holds itself -/

mutual

/-- The data with `whole` in the place of each loop of a label. -/
def close (label : Nat) (whole : Value) : Value → Value
  | .loop l isMap => if l = label then whole else .loop l isMap
  | .knot l v => .knot l (close label whole v)
  | .list vs => .list (closeAll label whole vs)
  | .tuple vs => .tuple (closeAll label whole vs)
  | .set vs => .set (closeAll label whole vs)
  | .map es => .map (closeEntries label whole es)
  | v => v

def closeAll (label : Nat) (whole : Value) : List Value → List Value
  | [] => []
  | v :: vs => close label whole v :: closeAll label whole vs

def closeEntries (label : Nat) (whole : Value) : List (Value × Value) → List (Value × Value)
  | [] => []
  | (k, v) :: es => (k, close label whole v) :: closeEntries label whole es

end

/-- The collection that a knot is, with the knot again where it holds itself. -/
def untied : Value → Value
  | .knot label v => close label (.knot label v) v
  | v => v

/-- The entries of a mapping. -/
def entries? (v : Value) : Option (List (Value × Value)) :=
  match v.untied with
  | .map es => some es
  | _ => none

/-- The items of a list. -/
def items? (v : Value) : Option (List Value) :=
  match v.untied with
  | .list vs => some vs
  | _ => none

@[simp] theorem entries?_map (es : List (Value × Value)) : entries? (.map es) = some es := rfl

@[simp] theorem lookup?_cons_self (key : String) (v : Value) (es : List (Value × Value)) :
    lookup? key ((.text key, v) :: es) = some v := by
  simp [lookup?]

theorem lookup?_cons_of_ne {key k : String} (h : k ≠ key) (v : Value) (es : List (Value × Value)) :
    lookup? key ((.text k, v) :: es) = lookup? key es := by
  simp [lookup?, h]

end Value

/-- What can be told as data. -/
class ToValue (α : Type) where
  toValue : α → Value

export ToValue (toValue)

instance : ToValue Value := ⟨id⟩

instance : ToValue String := ⟨.text⟩

instance : ToValue Nat := ⟨fun n => .int n⟩

instance : ToValue Int := ⟨.int⟩

end Acceptance

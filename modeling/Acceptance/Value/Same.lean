import Acceptance.Value.Calendar
/-!
Sameness of data: numbers are compared by value whatever their kind, truth values count as one and
zero, and mappings are compared without regard to order. Sameness is of data, not of what they
stand for, so what is not a number is the same as itself.
-/
namespace Acceptance.Value

def numeric? : Value → Option (Int ⊕ Binary64)
  | .boolean b => some (.inl (if b then 1 else 0))
  | .int n => some (.inl n)
  | .float x => some (.inr x)
  | _ => none

def sameNumber : Int ⊕ Binary64 → Int ⊕ Binary64 → Bool
  | .inl m, .inl n => m == n
  | .inl m, .inr y => y.compareInt? m == some .eq
  | .inr x, .inl n => x.compareInt? n == some .eq
  | .inr .nan, .inr .nan => true
  | .inr x, .inr y => x.sameNumber y

/-- Sameness of values that have no parts. -/
def sameScalar (v w : Value) : Bool :=
  match numeric? v, numeric? w with
  | some m, some n => sameNumber m n
  | none, none =>
    match v, w with
    | .null, .null => true
    | .text s, .text t => s == t
    | .torn a, .torn b => a == b
    | .bytes a, .bytes b => a == b
    | .date a, .date b => a == b
    | .moment a, .moment b => a.same b
    | _, _ => false
  | _, _ => false

/-- What stands under a key without parts. -/
def find? (key : Value) (es : List (Value × Value)) : Option Value :=
  (es.find? fun e => sameScalar e.1 key).map (·.2)

mutual

def same : Value → Value → Bool
  | .list vs, .list ws => sameAll vs ws
  | .tuple vs, .tuple ws => sameAll vs ws
  | .set vs, .set ws => vs.length == ws.length && sameAll vs ws
  | .map es, .map fs => es.length == fs.length && sameEntries es fs
  | v, w => sameScalar v w

def sameAll : List Value → List Value → Bool
  | [], [] => true
  | v :: vs, w :: ws => same v w && sameAll vs ws
  | _, _ => false

def sameEntries : List (Value × Value) → List (Value × Value) → Bool
  | [], _ => true
  | (k, v) :: es, fs =>
    (match find? k fs with
      | some w => same v w
      | none => false) && sameEntries es fs

end

/-- Puts an entry into a mapping: a key that is there keeps its place and gets the new value. -/
def put (key v : Value) : List (Value × Value) → List (Value × Value)
  | [] => [(key, v)]
  | (k, w) :: es => if sameScalar k key then (k, v) :: es else (k, w) :: put key v es

end Acceptance.Value

import Acceptance.Xml.Name
/-!
References to characters and entities, and the values of attributes, in which they are written out.
-/
namespace Acceptance.Xml

/-- What a reference to an entity stands for: a text, or something outside of the document. -/
inductive Entity
  | inside (text : List Char)
  | outside
  deriving DecidableEq, Repr

/-- The entities of a document. If parts of its type have not been read, others may be declared
there. -/
structure Entities where
  declared : List (String × Entity) := []
  incomplete : Bool := false
  deriving DecidableEq, Repr

def Entities.text? (es : Entities) (name : String) : Option (List Char) :=
  match es.declared.lookup name with
  | some (.inside text) => some text
  | _ => none

def Entities.add (name : String) (e : Entity) (es : Entities) : Entities :=
  { es with declared := es.declared ++ [(name, e)] }

inductive Reference
  | char (c : Char)
  | entity (name : String)
  deriving DecidableEq, Repr

def digitOf? (base : Nat) (c : Char) : Option Nat :=
  let n := c.toNat
  let d? :=
    if '0' ≤ c && c ≤ '9' then some (n - 48)
    else if 'a' ≤ c && c ≤ 'f' then some (n - 87)
    else if 'A' ≤ c && c ≤ 'F' then some (n - 55)
    else none
  d?.filter (· < base)

/-- The character with a number written in the given base. -/
def numbered? (base : Nat) (digits : List Char) : Option Char := do
  if digits.isEmpty then none
  let ds ← digits.mapM (digitOf? base)
  let n := ds.foldl (fun n d => n * base + d) 0
  if h : n.isValidChar then
    let c := Char.ofNatAux n h
    if isChar c then some c else none
  else none

def named? : String → Option Char
  | "lt" => some '<'
  | "gt" => some '>'
  | "amp" => some '&'
  | "quot" => some '"'
  | "apos" => some '\''
  | _ => none

/-- The reference behind an ampersand. -/
def takeReference? (cs : List Char) : Option (Reference × List Char) :=
  let numbered := fun (base : Nat) (cs : List Char) => do
    let (digits, rest) ← splitAt? [';'] cs
    return (Reference.char (← numbered? base digits), rest)
  match cs with
  | '#' :: 'x' :: rest => numbered 16 rest
  | '#' :: rest => numbered 10 rest
  | _ =>
    match takeWord? cs with
    | some (name, ';' :: rest) =>
      match named? name with
      | some c => some (.char c, rest)
      | none => some (.entity name, rest)
    | _ => none

/-- The value between two equal quotes. -/
def takeQuoted? : List Char → Option (List Char × List Char)
  | '"' :: cs => splitAt? ['"'] cs
  | '\'' :: cs => splitAt? ['\''] cs
  | _ => none

/-! ### Values of attributes -/

/-- The value of an attribute; white space in it is read as spaces. Replacement texts may nest at
most `depth` deep. With `depth` the number of entities, only those that contain themselves fail. An
entity that may be declared in parts that have not been read stands for nothing. -/
def attributeText? (entities : Entities) (depth : Nat) (cs : List Char) : Option (List Char) :=
  match cs with
  | [] => some []
  | '<' :: _ => none
  | '&' :: cs =>
    match takeReference? cs with
    | none => none
    | some (r, rest) =>
      if rest.length ≤ cs.length then do
        let value ← match r, depth with
          | .char c, _ => some [c]
          | .entity name, depth =>
            match entities.declared.lookup name, depth with
            | some (.inside text), d + 1 => attributeText? entities d text
            | some _, _ => none
            | none, _ => if entities.incomplete then some [] else none
        return value ++ (← attributeText? entities depth rest)
      else none
  | c :: cs => return (if isSpace c then ' ' else c) :: (← attributeText? entities depth cs)
termination_by (depth, cs.length)

/-- Single spaces between words and none around them; `fresh` tells that no word has come since the
last space. -/
def squeeze (fresh : Bool) : List Char → List Char
  | [] => []
  | ' ' :: cs =>
    if fresh then squeeze true cs
    else
      match squeeze true cs with
      | [] => []
      | rest => ' ' :: rest
  | c :: cs => c :: squeeze false cs

/-- A value as it counts: one that is made of words loses extra spaces. -/
def attributeValue? (entities : Entities) (isWords : Bool) (cs : List Char) :
    Option (List Char) := do
  let value ← attributeText? entities entities.declared.length cs
  return if isWords then squeeze true value else value

/-! ### Sizes -/

/-- The names of the entities that a text refers to. -/
def referred (cs : List Char) : List String :=
  match cs with
  | [] => []
  | '&' :: cs =>
    match takeReference? cs with
    | some (.entity name, _) => name :: referred cs
    | _ => referred cs
  | _ :: cs => referred cs

def byteCount (cs : List Char) : Nat := cs.foldl (fun n c => n + c.utf8Size) 0

/-- The bytes that references to the named entities are written out to. -/
def writtenOut (sizes : List (String × Nat)) (names : List String) : Nat :=
  names.foldl (fun n name => n + (sizes.lookup name).getD 0) 0

/-- The sizes of the entities with references written out, as far down as there are entities. -/
def Entities.sizes (es : Entities) : List (String × Nat) :=
  let own := es.declared.map fun (name, e) =>
    match e with
    | .inside text => (name, byteCount text, referred text)
    | .outside => (name, 0, [])
  own.foldl (fun sizes _ => own.map fun (name, size, names) =>
    (name, min (size + writtenOut sizes names) 0x100000000)) []

/-- Does a text stay small with its references written out? It may grow to eight million bytes, or
else to a hundred times its size. -/
def Entities.areSmallIn (es : Entities) (cs : List Char) : Bool :=
  let size := byteCount cs
  let whole := size + writtenOut es.sizes (referred cs)
  whole < 0x800000 || whole ≤ 100 * size

end Acceptance.Xml

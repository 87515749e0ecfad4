import Acceptance.Text.Utf8
import Acceptance.Yaml.Scalar
/-!
Tokens of a YAML text. Indentation shows up as tokens that open and close blocks. That a scalar or
collection is a key is known only when the colon behind it is found, so its place in the token list
is kept until then.
-/
namespace Acceptance.Yaml

inductive Token
  | version (major : Nat)
  | shorthand (handle uri : String)
  | directive
  | documentStart
  | documentEnd
  | streamEnd
  | sequenceStart
  | mappingStart
  | blockEnd
  | flowSequenceStart
  | flowMappingStart
  | flowSequenceEnd
  | flowMappingEnd
  | key
  | value
  | blockEntry
  | flowEntry
  | alias (name : String)
  | anchor (name : String)
  | tag (handle : Option String) (suffix : String)
  /-- A scalar by its code points. -/
  | scalar (text : List Nat) (plain : Bool)
  deriving DecidableEq, Repr

/-! ### Names and tags -/

def isWordLetter (c : Char) : Bool :=
  ('0' ≤ c && c ≤ '9') || ('A' ≤ c && c ≤ 'Z') || ('a' ≤ c && c ≤ 'z') || c == '-' || c == '_'

/-- The name of an anchor or alias whose mark has been passed. -/
def takeAnchor (p : Cursor) : Except Failure (String × Cursor) := do
  let (name, q) ← p.takeSome isWordLetter
  if atGap q.rest || q.rest.head?.any "?:,]\x7d%@`".toList.contains then
    return (String.ofList name, q)
  else .error .malformed

def isUriChar (c : Char) : Bool := isWordLetter c || ";/?:@&=+$,.!~*'()[]%".toList.contains c

/-- The bytes of a text in which a percent sign stands before two digits. -/
def unescapeUri? (cs : List Char) : Option (List UInt8) :=
  match cs with
  | [] => some []
  | '%' :: a :: b :: rest => do
    let n ← hexNumber? 2 [a, b]
    return n.toUInt8 :: (← unescapeUri? rest)
  | '%' :: _ => none
  | c :: rest => return (Text.encode (String.singleton c)).toList ++ (← unescapeUri? rest)

def takeUri (p : Cursor) : Except Failure (String × Cursor) := do
  let (cs, q) ← p.takeSome isUriChar
  match unescapeUri? cs with
  | none => .error .malformed
  | some bytes =>
    match Text.decode ⟨bytes.toArray⟩ with
    | .ok s => return (s, q)
    | .error _ => .error .malformed

/-- A handle: an exclamation mark alone before a space, or two around a word. -/
def takeHandle (p : Cursor) : Except Failure (String × Cursor) :=
  match p.rest with
  | '!' :: ' ' :: _ => .ok ("!", p.step)
  | '!' :: cs =>
    let word := cs.takeWhile isWordLetter
    if startsWith '!' (cs.drop word.length) then
      .ok (String.ofList ('!' :: word ++ ['!']), p.advance (word.length + 2))
    else .error .malformed
  | _ => .error .malformed

def takeTag (p : Cursor) : Except Failure (Token × Cursor) := do
  let cs := p.rest.drop 1
  let (tag, q) ←
    if startsWith '<' cs then do
      let (uri, q) ← takeUri (p.advance 2)
      if startsWith '>' q.rest then pure (Token.tag none uri, q.step) else .error .malformed
    else if atGap cs then pure (Token.tag none "!", p.step)
    else if (cs.takeWhile fun c => c != ' ' && !isLineBreak c).contains '!' then do
      let (handle, q) ← takeHandle p
      let (suffix, q) ← takeUri q
      pure (Token.tag (some handle) suffix, q)
    else do
      let (suffix, q) ← takeUri p.step
      pure (Token.tag (some "!") suffix, q)
  if atSpace q.rest then return (tag, q) else .error .malformed

/-! ### Directives -/

def takeDecimal (p : Cursor) : Except Failure (Nat × Cursor) := do
  let (ds, q) ← p.takeSome fun c => '0' ≤ c && c ≤ '9'
  if ds.length > Numeral.maxDigits then .error (.misfit (.integerTooLong ds.length))
  return (ds.foldl (fun n c => 10 * n + (c.toNat - 48)) 0, q)

def takeVersion (p : Cursor) : Except Failure (Token × Cursor) := do
  let (major, q) ← takeDecimal p.skipSpaces
  if startsWith '.' q.rest then
    let (_, q) ← takeDecimal q.step
    if atSpace q.rest then return (.version major, q) else .error .malformed
  else .error .malformed

def takeShorthand (p : Cursor) : Except Failure (Token × Cursor) := do
  let (handle, q) ← takeHandle p.skipSpaces
  if startsWith ' ' q.rest then
    let (uri, q) ← takeUri q.skipSpaces
    if atSpace q.rest then return (.shorthand handle uri, q) else .error .malformed
  else .error .malformed

/-- The directive whose percent sign is at the place. -/
def takeDirective (p : Cursor) : Except Failure (Token × Cursor) := do
  let (name, q) ← p.step.takeSome isWordLetter
  if !atSpace q.rest then .error .malformed
  let (token, q) ← match String.ofList name with
    | "YAML" => takeVersion q
    | "TAG" => takeShorthand q
    | _ => pure (Token.directive, q.skip (!isLineBreak ·))
  return (token, ← q.skipLine)

/-! ### The state of scanning -/

/-- A token that may turn out to start a key. It has to, if it stands where only a key can. -/
structure OpenKey where
  place : Nat
  required : Bool
  start : Cursor

structure Scan where
  cursor : Cursor
  indent : Int
  outer : List Int
  mayStartKey : Bool
  /-- One possible key for each open flow collection, innermost first, and one for the block. -/
  keys : List (Option OpenKey)
  /-- The tokens so far, last one first. -/
  tokens : List Token
  count : Nat

namespace Scan

def start (text : String) : Scan := ⟨.start text, -1, [], true, [none], [], 0⟩

def inFlow (s : Scan) : Bool := s.keys.length > 1

def push (t : Token) (s : Scan) : Scan := { s with tokens := t :: s.tokens, count := s.count + 1 }

def insertAt (place : Nat) (t : Token) (s : Scan) : Scan :=
  let n := s.count - place
  { s with tokens := s.tokens.take n ++ t :: s.tokens.drop n, count := s.count + 1 }

/-- Drops the possible key of the innermost collection. -/
def dropKey (s : Scan) : Except Failure Scan :=
  match s.keys with
  | some k :: keys => if k.required then .error .malformed else .ok { s with keys := none :: keys }
  | _ => .ok s

/-- Notes that a key may start here. -/
def saveKey (s : Scan) : Except Failure Scan :=
  if s.mayStartKey then do
    let s ← s.dropKey
    let k : OpenKey := ⟨s.count, !s.inFlow && s.indent = s.cursor.column, s.cursor⟩
    return { s with keys := some k :: s.keys.drop 1 }
  else return s

/-- A key is on one line and has at most 1024 characters. -/
def isStale (p : Cursor) (k : OpenKey) : Bool :=
  k.start.line != p.line || p.index - k.start.index > 1024

def dropStale (s : Scan) : Except Failure Scan :=
  let old := fun (k : Option OpenKey) => k.any (isStale s.cursor)
  if s.keys.any fun k => old k && k.any (·.required) then .error .malformed
  else .ok { s with keys := s.keys.map fun k => if old k then none else k }

/-- Closes the blocks that are indented more than `column`. -/
def unwindFrom (column : Int) (indent : Int) : List Int → Nat × Int × List Int
  | [] => (0, indent, [])
  | i :: outer =>
    if indent > column then
      let (n, rest) := unwindFrom column i outer
      (n + 1, rest)
    else (0, indent, i :: outer)

def unwind (column : Int) (s : Scan) : Scan :=
  if s.inFlow then s
  else
    let (n, indent, outer) := unwindFrom column s.indent s.outer
    { s with indent, outer, tokens := List.replicate n .blockEnd ++ s.tokens, count := s.count + n }

/-- Opens a block at the column, unless one is open there; `place` is where its token goes. -/
def openBlock (t : Token) (column place : Nat) (s : Scan) : Scan :=
  if s.indent < column then
    { s with indent := column, outer := s.indent :: s.outer }.insertAt place t
  else s

/-- Skips blanks, comments and line breaks. Behind a line break of a block a key may start. -/
def skipGaps (inFlow : Bool) (p : Cursor) (mayStartKey : Bool) : Cursor × Bool :=
  let q := p.skipSpaces
  let q := if startsWith '#' q.rest then q.skip (!isLineBreak ·) else q
  match q.takeBreak? with
  | some (_, r) =>
    if r.rest.length < p.rest.length then skipGaps inFlow r (mayStartKey || !inFlow)
    else (q, mayStartKey)
  | none => (q, mayStartKey)
termination_by p.rest.length

/-- Goes to the next token. -/
def prepare (s : Scan) : Except Failure Scan := do
  let first := s.cursor
  let first := if first.index = 0 && first.rest.head?.any (·.toNat == 0xfeff) then first.step
    else first
  let (cursor, mayStartKey) := skipGaps s.inFlow first s.mayStartKey
  let s ← { s with cursor, mayStartKey }.dropStale
  return s.unwind cursor.column

/-! ### One token -/

def document (t : Token) (s : Scan) : Except Failure Scan := do
  let s ← (s.unwind (-1)).dropKey
  return { s with mayStartKey := false, cursor := s.cursor.advance 3 }.push t

def directive (s : Scan) : Except Failure Scan := do
  let s ← (s.unwind (-1)).dropKey
  let (t, cursor) ← takeDirective s.cursor
  return { s with mayStartKey := false, cursor }.push t

def flowStart (t : Token) (s : Scan) : Except Failure Scan := do
  let s ← s.saveKey
  return { s with keys := none :: s.keys, mayStartKey := true, cursor := s.cursor.step }.push t

def flowEnd (t : Token) (s : Scan) : Except Failure Scan := do
  let s ← s.dropKey
  if s.inFlow then
    return { s with keys := s.keys.drop 1, mayStartKey := false, cursor := s.cursor.step }.push t
  else .error .malformed

def flowEntry (s : Scan) : Except Failure Scan := do
  let s ← s.dropKey
  return { s with mayStartKey := true, cursor := s.cursor.step }.push .flowEntry

/-- An indicator that opens a block where a key may start. -/
def blockMark (block mark : Token) (mayStartKey : Bool) (s : Scan) : Except Failure Scan := do
  if !s.inFlow && !s.mayStartKey then .error .malformed
  let s := if s.inFlow then s else s.openBlock block s.cursor.column s.count
  let s ← { s with mayStartKey }.dropKey
  return { s with cursor := s.cursor.step }.push mark

/-- A value: its key may be pending, or come with an indicator of its own, or be missing. -/
def value (s : Scan) : Except Failure Scan :=
  match s.keys with
  | some k :: keys =>
    let s := { s with keys := none :: keys, mayStartKey := false }.insertAt k.place .key
    let s := if s.inFlow then s else s.openBlock .mappingStart k.start.column k.place
    .ok ({ s with cursor := s.cursor.step }.push .value)
  | _ => s.blockMark .mappingStart .value (!s.inFlow)

/-- A token that may start a key. -/
def item (take : Cursor → Except Failure (Token × Cursor)) (s : Scan) : Except Failure Scan := do
  let s ← s.saveKey
  let (t, cursor) ← take s.cursor
  return { s with mayStartKey := false, cursor }.push t

def block (isFolded : Bool) (s : Scan) : Except Failure Scan := do
  let s ← { s with mayStartKey := true }.dropKey
  let (text, cursor) ← takeBlock isFolded s.indent s.cursor
  return { s with cursor }.push (.scalar (text.map Char.toNat) false)

def plain (s : Scan) : Except Failure Scan := do
  let s ← s.saveKey
  let (text, mayStartKey, cursor) := takePlainFrom s.inFlow (s.indent + 1) s.cursor [] [] false
  return { s with mayStartKey, cursor }.push (.scalar (text.map Char.toNat) true)

/-- May a plain scalar start with this? -/
def startsPlain (inFlow : Bool) (c : Char) (cs : List Char) : Bool :=
  !(isGap c || isLineBreak c || "-?:,[]\x7b\x7d#&*!|>'\"%@`".toList.contains c) ||
    (!atGap cs && (c == '-' || (!inFlow && (c == '?' || c == ':'))))

def fetch (c : Char) (cs : List Char) (s : Scan) : Except Failure Scan :=
  let starts := s.cursor.column = 0
  let separates := starts && atSeparator (c :: cs)
  if c = '%' ∧ starts then s.directive
  else if c = '-' ∧ separates then s.document .documentStart
  else if c = '.' ∧ separates then s.document .documentEnd
  else if c = '[' then s.flowStart .flowSequenceStart
  else if c = '\x7b' then s.flowStart .flowMappingStart
  else if c = ']' then s.flowEnd .flowSequenceEnd
  else if c = '\x7d' then s.flowEnd .flowMappingEnd
  else if c = ',' then s.flowEntry
  else if c = '-' ∧ atGap cs then s.blockMark .sequenceStart .blockEntry true
  else if c = '?' ∧ (s.inFlow ∨ atGap cs) then s.blockMark .mappingStart .key (!s.inFlow)
  else if c = ':' ∧ (s.inFlow ∨ atGap cs) then s.value
  else if c = '*' then s.item fun p => do
    let (name, p) ← takeAnchor p.step
    return (.alias name, p)
  else if c = '&' then s.item fun p => do
    let (name, p) ← takeAnchor p.step
    return (.anchor name, p)
  else if c = '!' then s.item takeTag
  else if c = '|' ∧ ¬s.inFlow then s.block false
  else if c = '>' ∧ ¬s.inFlow then s.block true
  else if c = '\'' ∨ c = '"' then s.item fun p => do
    let (text, p) ← takeQuoted p
    return (.scalar text false, p)
  else if startsPlain s.inFlow c cs then s.plain
  else .error .malformed

/-- The tokens that are certain: a possible key holds back those from its own place on, since a
token may still be put there. -/
def certain (s : Scan) : List Token :=
  let places := s.keys.filterMap fun k => (k.filter (!isStale s.cursor ·)).map (·.place)
  s.tokens.reverse.take (places.foldl min s.count)

/-- One step: the state behind the next token, or all tokens. -/
def step (s : Scan) : Except Failure (Scan ⊕ List Token) := do
  let ready ← s.prepare
  match ready.cursor.rest with
  | [] => do
    let last ← (ready.unwind (-1)).dropKey
    return .inr (Token.streamEnd :: last.tokens).reverse
  | c :: cs => return .inl (← ready.fetch c cs)

/-- All tokens from a state on. Each takes at least one character. Where the text cannot be read on,
there are only the tokens that are certain by then, and the reason. -/
def run (s : Scan) : List Token × Option Failure :=
  match s.step with
  | .error f => (s.certain, some f)
  | .ok (.inr ts) => (ts, none)
  | .ok (.inl next) =>
    if next.cursor.rest.length < s.cursor.rest.length then next.run
    else (s.certain, some .malformed)
termination_by s.cursor.rest.length

end Scan

/-- May the character stand in a YAML text? -/
def isPrintable (c : Char) : Bool :=
  let n := c.toNat
  n == 9 || n == 10 || n == 13 || (0x20 ≤ n && n ≤ 0x7e) || n == 0x85 ||
    (0xa0 ≤ n && n != 0xfffe && n != 0xffff)

/-- The tokens of a text, and why there are no more if it cannot be read to its end. -/
def tokens (text : String) : List Token × Option Failure :=
  if text.toList.all isPrintable then (Scan.start text).run else ([], some .malformed)

end Acceptance.Yaml

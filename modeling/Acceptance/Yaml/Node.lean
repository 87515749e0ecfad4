import Acceptance.Yaml.Tag
import Acceptance.Yaml.Token
/-!
Nodes of a YAML document, made from its tokens. They stand in a table and refer to each other by
their places in it, so that an alias is the very node that has its anchor, even inside that node.
-/
namespace Acceptance.Yaml

/-- What a node holds: the code points of a scalar, or other nodes by their places. -/
inductive Content
  | scalar (text : List Nat)
  | sequence (items : List Nat)
  | mapping (entries : Array (Nat × Nat))
  deriving Inhabited

structure Node where
  tag : Tag
  content : Content
  deriving Inhabited

/-- The tokens to come and why there are no more, the nodes so far, the anchors with the places of
their nodes, and the shorthands of tags. -/
structure Parse where
  rest : List Token
  ending : Failure
  nodes : Array Node := #[]
  anchors : List (String × Nat) := []
  handles : List (String × String) := []
  /-- The collections that are being made. -/
  within : List Nat := []
  /-- Is there an alias inside the node that it stands for? -/
  isKnotted : Bool := false

abbrev Parser := StateT Parse (Except Failure)

namespace Parser

def fail {α : Type} : Parser α := throw .malformed

def peek : Parser Token := do
  match (← get).rest with
  | t :: _ => return t
  | [] => throw (← get).ending

def skip : Parser Unit := modify fun s => { s with rest := s.rest.drop 1 }

/-- Takes a token if it is the next one. -/
def accept (t : Token) : Parser Bool := do
  if (← peek) = t then
    skip
    return true
  else return false

def peekIs (ts : List Token) : Parser Bool := return ts.contains (← peek)

def takeAnchor? : Parser (Option String) := do
  match ← peek with
  | .anchor name =>
    skip
    return some name
  | _ => return none

/-- A tag: its shorthand and the rest of its name. -/
def takeTag? : Parser (Option (Option String × String)) := do
  match ← peek with
  | .tag handle suffix =>
    skip
    return some (handle, suffix)
  | _ => return none

/-- The name of a tag with its shorthand written out. -/
def tagName : Option (Option String × String) → Parser (Option String)
  | none => return none
  | some (none, suffix) => return some suffix
  | some (some handle, suffix) => do
    match (← get).handles.lookup handle with
    | some uri => return some (uri ++ suffix)
    | none => fail

/-- An anchor is given once only. -/
def checkAnchor (name : Option String) : Parser Unit := do
  match name with
  | none => return
  | some name => if ((← get).anchors.lookup name).isSome then fail

/-- Puts a node into the table and gives it its anchor. -/
def add (anchor : Option String) (n : Node) : Parser Nat :=
  modifyGet fun s =>
    let i := s.nodes.size
    let anchors := (anchor.map fun name => (name, i)).toList ++ s.anchors
    (i, { s with nodes := s.nodes.push n, anchors })

/-- A collection is in the table before its parts are read. -/
def collection (anchor : Option String) (tag : Tag) (parts : Parser Content) : Parser Nat := do
  let i ← add anchor ⟨tag, .sequence []⟩
  modify fun s => { s with within := i :: s.within }
  let content ← parts
  modify fun s =>
    { s with nodes := s.nodes.setIfInBounds i ⟨tag, content⟩, within := s.within.drop 1 }
  return i

/-- The node that an alias stands for. -/
def aliased (name : String) : Parser Nat := do
  match (← get).anchors.lookup name with
  | none => fail
  | some i =>
    modify fun s => { s with isKnotted := s.isKnotted || s.within.contains i }
    return i

/-- The node that is meant where nothing is written. -/
def empty : Parser Nat := add none ⟨.null, .scalar []⟩

/-- The tag of a collection, if it is not told. -/
def tagOr (fallback : Tag) (name : Option String) : Tag :=
  match name with
  | none => fallback
  | some "!" => fallback
  | some name => .ofName name

def scalarTag (name : Option String) (text : List Nat) (plain : Bool) : Tag :=
  match name with
  | none => if plain then .ofPlain (Text.visible text) else .text
  | some "!" => .ofPlain (Text.visible text)
  | some name => .ofName name

/-- Anchor and tag of a node. -/
structure Marks where
  anchor : Option String
  tag : Option String

def takeMarks : Parser Marks := do
  let first ← takeAnchor?
  let tag ← takeTag?
  let anchor ← if first.isSome || tag.isNone then pure first else takeAnchor?
  let tag ← tagName tag
  let _ ← peek
  checkAnchor anchor
  return ⟨anchor, tag⟩

def scalar (m : Marks) (text : List Nat) (plain : Bool) : Parser Nat :=
  add m.anchor ⟨scalarTag m.tag text plain, .scalar text⟩

def sequence (m : Marks) (items : Parser (List Nat)) : Parser Nat :=
  collection m.anchor (tagOr .sequence m.tag) (Content.sequence <$> items)

def mapping (m : Marks) (entries : Parser (List (Nat × Nat))) : Parser Nat :=
  collection m.anchor (tagOr .mapping m.tag) ((fun es => Content.mapping es.toArray) <$> entries)

/-- A node without content is a scalar, if it has an anchor or a tag. -/
def bare (m : Marks) : Parser Nat :=
  if m.anchor.isSome || m.tag.isSome then scalar m [] true else fail

/-- Where a node may stand: in blocks it may be a block; as the value of a key, also a sequence
without an indentation of its own. -/
inductive Spot
  | flow
  | block
  | value
  deriving DecidableEq

mutual

/-- A node, where `depth` is how deep collections may still be nested. -/
def node : Nat → Nat → Spot → Parser Nat
  | 0, _, _ => fail
  | fuel + 1, depth, spot => do
    if let .alias name ← peek then
      skip
      aliased name
    else
      content fuel depth spot (← takeMarks)

/-- What follows the anchor and the tag of a node. -/
def content : Nat → Nat → Spot → Marks → Parser Nat
  | 0, _, _, _ => fail
  | fuel + 1, depth, spot, m => do
    match ← peek, depth with
    | .scalar text plain, _ =>
      skip
      scalar m text plain
    | .flowSequenceStart, depth + 1 =>
      skip
      sequence m (flowItems fuel depth true)
    | .flowMappingStart, depth + 1 =>
      skip
      mapping m (flowEntries fuel depth true)
    | .blockEntry, depth + 1 =>
      if spot = .value then sequence m (indentlessItems fuel depth) else bare m
    | .sequenceStart, depth + 1 =>
      if spot = .flow then bare m
      else
        skip
        sequence m (blockItems fuel depth)
    | .mappingStart, depth + 1 =>
      if spot = .flow then bare m
      else
        skip
        mapping m (blockEntries fuel depth)
    | _, 0 => throw (.misfit .endless)
    | _, _ => bare m

/-- A node, unless one of the given tokens shows that it is left out. -/
def nodeUnless : Nat → Nat → List Token → Spot → Parser Nat
  | 0, _, _, _ => fail
  | fuel + 1, depth, ends, spot => do
    if ← peekIs ends then empty else node fuel depth spot

def blockItems : Nat → Nat → Parser (List Nat)
  | 0, _ => fail
  | fuel + 1, depth => do
    if ← accept .blockEntry then
      let n ← nodeUnless fuel depth [.blockEntry, .blockEnd] .block
      return n :: (← blockItems fuel depth)
    else if ← accept .blockEnd then return []
    else fail

def indentlessItems : Nat → Nat → Parser (List Nat)
  | 0, _ => fail
  | fuel + 1, depth => do
    if ← accept .blockEntry then
      let n ← nodeUnless fuel depth [.blockEntry, .key, .value, .blockEnd] .block
      return n :: (← indentlessItems fuel depth)
    else return []

def blockEntries : Nat → Nat → Parser (List (Nat × Nat))
  | 0, _ => fail
  | fuel + 1, depth => do
    let ends := [Token.key, .value, .blockEnd]
    if ← accept .key then
      let k ← nodeUnless fuel depth ends .value
      let v ← if ← accept .value then nodeUnless fuel depth ends .value else empty
      return (k, v) :: (← blockEntries fuel depth)
    else if ← accept .blockEnd then return []
    else fail

/-- A key in flow, whose mark has been passed, and its value. -/
def flowEntry : Nat → Nat → Token → Parser (Nat × Nat)
  | 0, _, _ => fail
  | fuel + 1, depth, ending => do
    let k ← nodeUnless fuel depth [.value, .flowEntry, ending] .flow
    let v ← if ← accept .value then nodeUnless fuel depth [.flowEntry, ending] .flow else empty
    return (k, v)

/-- The items of a flow sequence. A key in it makes a mapping of one entry. -/
def flowItems : Nat → Nat → Bool → Parser (List Nat)
  | 0, _, _ => fail
  | fuel + 1, depth, first => do
    if ← accept .flowSequenceEnd then return []
    if !first then
      if !(← accept .flowEntry) then fail
    if ← accept .key then
      let n ← mapping ⟨none, none⟩ ((fun e => [e]) <$> flowEntry fuel depth .flowSequenceEnd)
      return n :: (← flowItems fuel depth false)
    else if ← accept .flowSequenceEnd then return []
    else
      let n ← node fuel depth .flow
      return n :: (← flowItems fuel depth false)

def flowEntries : Nat → Nat → Bool → Parser (List (Nat × Nat))
  | 0, _, _ => fail
  | fuel + 1, depth, first => do
    if ← accept .flowMappingEnd then return []
    if !first then
      if !(← accept .flowEntry) then fail
    if ← accept .key then
      let e ← flowEntry fuel depth .flowMappingEnd
      return e :: (← flowEntries fuel depth false)
    else if ← accept .flowMappingEnd then return []
    else
      let k ← node fuel depth .flow
      let v ← empty
      return (k, v) :: (← flowEntries fuel depth false)

end

/-! ### Documents -/

/-- Collections may not be nested deeper than this. -/
def maxDepth : Nat := 489

def usualHandles : List (String × String) := [("!", "!"), ("!!", "tag:yaml.org,2002:")]

/-- The directives before a document: at most one version, which has to be 1, and shorthands. -/
def directives : Nat → Bool → List (String × String) → Parser Unit
  | 0, _, _ => fail
  | fuel + 1, versioned, own => do
    match ← peek with
    | .version major =>
      skip
      if versioned || major ≠ 1 then fail else directives fuel true own
    | .shorthand handle uri =>
      skip
      if (own.lookup handle).isSome then fail
      else directives fuel versioned ((handle, uri) :: own)
    | .directive =>
      skip
      directives fuel versioned own
    | _ => modify fun s => { s with handles := own ++ usualHandles }

def startsDocument : Token → Bool
  | .version _ => true
  | .shorthand .. => true
  | .directive => true
  | .documentStart => true
  | _ => false

/-- The node of a document, whose start mark has been passed if it has one. -/
def body (fuel : Nat) : Parser Nat := do
  let t ← peek
  if startsDocument t || t = .documentEnd || t = .streamEnd then empty
  else node fuel maxDepth .block

/-- Marks of document ends, and then the end of all. -/
def closing : Nat → Parser Unit
  | 0 => fail
  | fuel + 1 => do
    match ← peek with
    | .documentEnd =>
      skip
      closing fuel
    | .streamEnd => return
    | _ => fail

/-- The only document of a stream, if there is one. -/
def single (fuel : Nat) : Parser (Option Nat) := do
  let t ← peek
  if t = .streamEnd then return none
  if t = .documentEnd then fail
  if startsDocument t then
    directives fuel false []
    if !(← accept .documentStart) then fail
  else modify fun s => { s with handles := usualHandles }
  let root ← body fuel
  closing fuel
  return some root

end Parser

/-- The nodes of a document and the place of its root. -/
structure Graph where
  nodes : Array Node
  root : Nat
  isKnotted : Bool

/-- The document of a text. A token takes part in a few calls at most, which bounds their depth. -/
def Graph.ofText (text : String) : Except Failure (Option Graph) := do
  let (ts, ending) := tokens text
  let start : Parse := { rest := ts, ending := ending.getD .malformed }
  let (root, s) ← (Parser.single (8 * ts.length + 8)).run start
  return root.map fun root => ⟨s.nodes, root, s.isKnotted⟩

end Acceptance.Yaml

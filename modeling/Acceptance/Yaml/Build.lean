import Acceptance.Value.Same
import Acceptance.Yaml.Meaning
import Acceptance.Yaml.Merge
/-!
Building the data of a document. Each node is built once. A collection is there at once, still
hollow, and is filled when its turn comes: first those met first. So of several failures the one
nearest to the root counts, and a collection may be met again while it is being filled.
-/
namespace Acceptance.Yaml

/-- A key of a mapping. Keys that are not numbers, though of that type, are the same only if they
have the same origin. -/
structure Key where
  value : Value
  origin : Nat

def Key.isNan (k : Key) : Bool :=
  match k.value with
  | .float .nan => true
  | _ => false

def Key.same (k l : Key) : Bool :=
  if k.isNan && l.isNan then k.origin = l.origin else k.value.sameScalar l.value

/-- An item of a list: a node, or a pair of nodes. -/
inductive Item
  | one (node : Nat)
  | pair (key value : Nat)

/-- What a node has been built into, with its parts by their nodes. -/
inductive Built
  | leaf (key : Key)
  | hollow
  | list (items : List Item)
  | set (keys : List Key)
  | map (entries : List (Key × Nat))

/-- Is it a list or a mapping or a set, filled or not? Those cannot be keys. -/
def Built.key? : Built → Option Key
  | .leaf k => some k
  | _ => none

def Tag.isCollection : Tag → Bool
  | .sequence => true
  | .mapping => true
  | .set => true
  | .ordered => true
  | .pairs => true
  | _ => false

/-- Is there a meaning for nodes of this tag that are no collections? -/
def Tag.isKnown : Tag → Bool
  | .merge => false
  | .default => false
  | .other _ => false
  | _ => true

/-- The nodes, what has been built, and the collections still to be filled, last one first. -/
structure Building where
  nodes : Array Node
  built : Array (Option Built)
  hollow : List Nat := []

abbrev Builder := StateT Building (Except Failure)

namespace Builder

open Acceptance.Yaml.Graph

def nodeOf (i : Nat) : Builder Node := return nodeAt (← get).nodes i

def settle (i : Nat) (b : Built) : Builder Unit :=
  modify fun s => { s with built := s.built.setIfInBounds i (some b) }

/-- The code points of a scalar, or of the default value of a mapping. -/
def scalarText (nodes : Array Node) : Nat → Nat → Except Failure (List Nat)
  | 0, _ => .error (.misfit .endless)
  | fuel + 1, i =>
    match (nodeAt nodes i).content with
    | .scalar text => .ok text
    | .sequence _ => .error .malformed
    | .mapping es =>
      match es.find? fun e => (nodeAt nodes e.1).tag = .default with
      | some (_, v) => scalarText nodes fuel v
      | none => .error .malformed

/-- A node that is no collection. A time has to be written in the node itself. -/
def leaf (i : Nat) (n : Node) : Builder Key := do
  if !n.tag.isKnown then throw .malformed
  let nodes := (← get).nodes
  let text ← scalarText nodes (nodes.size + 1) i
  match n.tag, n.content with
  | .timestamp, .mapping _ => throw (.misfit .wrongKind)
  | tag, _ =>
    let value ← scalarValue tag text
    return ⟨value, if namesNan text then 0 else i + 1⟩

/-- Builds a node, if that has not been done. -/
def visit (i : Nat) : Builder Built := do
  match (← get).built.getD i none with
  | some b => return b
  | none =>
    let n ← nodeOf i
    if n.tag.isCollection then
      settle i .hollow
      modify fun s => { s with hollow := i :: s.hollow }
      return .hollow
    else
      let k ← leaf i n
      settle i (.leaf k)
      return .leaf k

def put (key : Key) (v : Nat) : List (Key × Nat) → List (Key × Nat)
  | [] => [(key, v)]
  | (k, w) :: es => if k.same key then (k, v) :: es else (k, w) :: put key v es

/-- The entries of a mapping, with what is merged into it. -/
def entries (i : Nat) : Builder (List (Key × Nat)) := do
  match (← nodeOf i).content with
  | .mapping _ =>
    let nodes ← merge i (← get).nodes
    modify fun s => { s with nodes }
    let es := (entriesAt? nodes i).getD #[]
    es.foldlM (fun found (k, v) => do
      match (← visit k).key? with
      | none => throw .malformed
      | some key =>
        let _ ← visit v
        return put key v found) []
  | _ => throw .malformed

def items (i : Nat) : Builder (List Item) := do
  match (← nodeOf i).content with
  | .sequence is => is.mapM fun j => do
    let _ ← visit j
    return .one j
  | _ => throw .malformed

/-- The items of a list of pairs, each of which is written as a mapping of one entry. -/
def pairs (i : Nat) : Builder (List Item) := do
  match (← nodeOf i).content with
  | .sequence is => is.mapM fun j => do
    match (entriesAt? (← get).nodes j).map Array.toList with
    | some [(k, v)] =>
      let _ ← visit k
      let _ ← visit v
      return .pair k v
    | _ => throw .malformed
  | _ => throw .malformed

def fill (i : Nat) : Builder Unit := do
  match (← nodeOf i).tag with
  | .mapping => settle i (.map (← entries i))
  | .set => settle i (.set ((← entries i).map (·.1)))
  | .sequence => settle i (.list (← items i))
  | _ => settle i (.list (← pairs i))

/-- Fills collections round by round: in each round those met in the round before. -/
def fillAll : Nat → Builder Unit
  | 0 => return
  | fuel + 1 => do
    match (← get).hollow with
    | [] => return
    | waiting =>
      modify fun s => { s with hollow := [] }
      waiting.reverse.forM fill
      fillAll fuel

end Builder

/-- What all nodes that the root leads to are built into. Each round fills nodes that no other round
fills. -/
def Graph.build (g : Graph) : Except Failure (Array (Option Built)) := do
  let start : Building := ⟨g.nodes, Array.replicate g.nodes.size none, []⟩
  let build : Builder Unit := do
    let _ ← Builder.visit g.root
    Builder.fillAll (g.nodes.size + 1)
  let (_, s) ← build.run start
  return s.built

end Acceptance.Yaml

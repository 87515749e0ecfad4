import Acceptance.Yaml.Node
/-!
Merge keys. A mapping takes over the entries of the mappings that its merge keys name, before its
own. This is done in the table of nodes and once for each mapping, so that a mapping shows what was
merged into it wherever it is used, even inside itself.
-/
namespace Acceptance.Yaml

namespace Graph

abbrev Entries := Array (Nat × Nat)

/-- The node at a place of a table. -/
def nodeAt (nodes : Array Node) (i : Nat) : Node := nodes.getD i default

/-- The entries of a mapping. -/
def entriesAt? (nodes : Array Node) (i : Nat) : Option Entries :=
  match (nodeAt nodes i).content with
  | .mapping es => some es
  | _ => none

def setEntries (i : Nat) (es : Entries) (nodes : Array Node) : Array Node :=
  nodes.modify i fun n => { n with content := .mapping es }

def setTag (i : Nat) (tag : Tag) (nodes : Array Node) : Array Node :=
  nodes.modify i fun n => { n with tag }

mutual

/-- Goes through the entries of the mapping at a place from a position on; `merged` has what merge
keys brought in so far. A default key turns into a text. -/
def mergeFrom : Nat → Nat → Nat → Entries → Array Node → Except Failure (Array Node)
  | 0, _, _, _, _ => .error (.misfit .endless)
  | fuel + 1, i, position, merged, nodes =>
    match entriesAt? nodes i with
    | none => .error .malformed
    | some es =>
      match es[position]? with
      | none => .ok (if merged.isEmpty then nodes else setEntries i (merged ++ es) nodes)
      | some (k, v) =>
        match (nodeAt nodes k).tag with
        | .merge => do
          let nodes := setEntries i (es.eraseIdxIfInBounds position) nodes
          let (found, nodes) ← mergedFrom fuel v nodes
          mergeFrom fuel i position (merged ++ found) nodes
        | .default => mergeFrom fuel i (position + 1) merged (setTag k .text nodes)
        | _ => mergeFrom fuel i (position + 1) merged nodes

/-- The entries that a merge key with the given value brings in. Of several mappings the first has
the last word. -/
def mergedFrom : Nat → Nat → Array Node → Except Failure (Entries × Array Node)
  | 0, _, _ => .error (.misfit .endless)
  | fuel + 1, v, nodes =>
    match (nodeAt nodes v).content with
    | .mapping _ => do
      let nodes ← mergeFrom fuel v 0 #[] nodes
      return ((entriesAt? nodes v).getD #[], nodes)
    | .sequence items => mergedItems fuel items nodes
    | .scalar _ => .error .malformed

def mergedItems : Nat → List Nat → Array Node → Except Failure (Entries × Array Node)
  | 0, _, _ => .error (.misfit .endless)
  | _ + 1, [], nodes => .ok (#[], nodes)
  | fuel + 1, v :: vs, nodes =>
    match (nodeAt nodes v).content with
    | .mapping _ => do
      let nodes ← mergeFrom fuel v 0 #[] nodes
      let own := (entriesAt? nodes v).getD #[]
      let (rest, nodes) ← mergedItems fuel vs nodes
      return (rest ++ own, nodes)
    | _ => .error .malformed

end

/-- The table with all merge keys of a mapping carried out. Every merge takes an entry away, which
bounds how deep merges lead into each other. -/
def merge (i : Nat) (nodes : Array Node) : Except Failure (Array Node) :=
  mergeFrom (64 * (nodes.size + 2) * (nodes.size + 2)) i 0 #[] nodes

end Graph
end Acceptance.Yaml

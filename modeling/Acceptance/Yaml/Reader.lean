import Acceptance.Value.SetOrder
import Acceptance.Yaml.Build
/-!
The data of a YAML document as a value. A collection that leads back to itself becomes a knot.
-/
namespace Acceptance.Yaml

/-! ### Knots -/

/-- The nodes that something has been built from. -/
def Built.parts : Built → List Nat
  | .list items => items.flatMap fun
    | .one i => [i]
    | .pair k v => [k, v]
  | .map es => es.map (·.2)
  | _ => []

def Built.isMap : Built → Bool
  | .map _ => true
  | _ => false

abbrev Table := Array (Option Built)

def Table.at (t : Table) (i : Nat) : Built := (t.getD i none).getD .hollow

/-- Does one of some nodes lead to the goal? Those already seen need not be looked at again. -/
def Table.leadsTo (t : Table) (goal : Nat) : Nat → List Nat → List Nat → Bool
  | 0, _, _ => false
  | _ + 1, [], _ => false
  | fuel + 1, i :: rest, seen =>
    if i = goal then true
    else if seen.contains i then t.leadsTo goal fuel rest seen
    else t.leadsTo goal fuel ((t.at i).parts ++ rest) (i :: seen)

/-- The nodes that lead back to themselves. -/
def Table.knots (t : Table) : List Nat :=
  let links := (List.range t.size).foldl (fun n i => n + (t.at i).parts.length) 1
  (List.range t.size).filter fun i => t.leadsTo i (links + 1) (t.at i).parts []

/-! ### Values -/

/-- The values of nodes that do not depend on the way to them. -/
abbrev Known := StateM (Array (Option Value))

/-- The value of a node, with the knots around it whose loops it holds; `path` has the knots that
lead to it. The nodes on a way to a node are all different, which bounds its length. -/
def Table.value (t : Table) (knots : List Nat) : Nat → List Nat → Nat → Known (Value × List Nat)
  | 0, _, _ => return (.null, [])
  | fuel + 1, path, i => do
    if let some v := (← get).getD i none then return (v, [])
    if path.contains i then return (.loop i (t.at i).isMap, [i])
    let isKnot := knots.contains i
    let inner := if isKnot then i :: path else path
    let (v, loops) : Value × List Nat ← match t.at i with
      | .leaf k => pure (k.value, [])
      | .hollow => pure (.list [], [])
      | .set keys => pure (.set (Value.setOrder (keys.map (·.value))), [])
      | .list items => do
        let parts ← items.mapM fun
          | .one j => t.value knots fuel inner j
          | .pair k w => do
            let (a, as) ← t.value knots fuel inner k
            let (b, bs) ← t.value knots fuel inner w
            pure (.tuple [a, b], as ++ bs)
        pure (.list (parts.map (·.1)), parts.flatMap (·.2))
      | .map es => do
        let parts ← es.mapM fun (k, j) => do
          let (v, loops) ← t.value knots fuel inner j
          pure ((k.value, v), loops)
        pure (.map (parts.map (·.1)), parts.flatMap (·.2))
    let outer := loops.filter fun j => !isKnot || j ≠ i
    let v := if isKnot then .knot i v else v
    if outer.isEmpty then modify (·.setIfInBounds i (some v))
    return (v, outer)

def Graph.value (g : Graph) (t : Table) : Value :=
  let knots := if g.isKnotted then t.knots else []
  ((t.value knots (t.size + 1) [] g.root).run (Array.replicate t.size none)).1.1

/-- The data of a text that holds at most one document. -/
def read (text : String) : Except Failure Value := do
  match ← Graph.ofText text with
  | none => return .null
  | some g => return g.value (← g.build)

end Acceptance.Yaml

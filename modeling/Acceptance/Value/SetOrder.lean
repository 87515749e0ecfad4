import Acceptance.Value.Basic
/-!
The order in which a set of numbers shows its items. A set is kept in a table of slots that has room
to spare. Each number asks for the slot of its residue, and where that is taken, for others; the set
is read off slot by slot. Sets with other items are shown as they were written.
-/
namespace Acceptance.Value

/-- Numbers are told apart by their residues modulo this prime, `2^61 - 1`. -/
def residueModulus : Nat := 2305843009213693951

/-- A residue with a sign. There is no -1; its place is taken by -2. -/
def signedResidue (negative : Bool) (m : Nat) : Int :=
  let r : Int := m % residueModulus
  if negative then (if r = 1 then -2 else -r) else r

/-- The residue of a number; numbers that are the same have the same. Since `2^61` has residue one,
a power of two has the residue of the power whose exponent is taken modulo 61. -/
def residue? : Value → Option Int
  | .boolean b => some (if b then 1 else 0)
  | .int n => some (signedResidue (n < 0) n.natAbs)
  | .float (.finite negative m e) =>
    some (signedResidue negative (m * Nat.pow 2 (e.emod 61).toNat))
  | .float (.infinite negative) => some (signedResidue negative 314159)
  | _ => none

/-- More than twice as many slots as items, at least eight, in a power of two. Up to four items need
no more than the eight. -/
def slotCount (items : Nat) : Nat :=
  if items ≤ 4 then 8 else max 8 (Nat.pow 2 ((2 * items).log2 + 1))

/-- The slots that are looked at together: the ten from `i` on, if there are so many. -/
def slotRun (count i : Nat) : List Nat :=
  if i + 9 < count then (List.range 10).map (i + ·) else [i]

/-- The first free slot on the way from slot `i`. The way is led by what is left of the residue, and
when that is used up it comes through all slots, which is what the fuel is for. -/
def freeSlot (count : Nat) (taken : List Nat) : Nat → Nat → Nat → Nat
  | 0, i, _ => i
  | fuel + 1, i, rest =>
    match (slotRun count i).find? (!taken.contains ·) with
    | some slot => slot
    | none => freeSlot count taken fuel ((5 * i + 1 + rest / 32) % count) (rest / 32)

/-- The slot for a residue; negative residues count down from `2^64`. -/
def slotFor (count : Nat) (taken : List Nat) (r : Int) : Nat :=
  freeSlot count taken (count + 14) (r.emod count).toNat (r.emod 18446744073709551616).toNat

/-- The items with their slots. -/
def slotted (count : Nat) : List (Nat × Value) → List (Int × Value) → List (Nat × Value)
  | placed, [] => placed
  | placed, (r, v) :: rest =>
    slotted count ((slotFor count (placed.map (·.1)) r, v) :: placed) rest

/-- The items of a set in the order in which they are shown. -/
def setOrder (items : List Value) : List Value :=
  match items.mapM fun v => (residue? v).map fun r => (r, v) with
  | none => items
  | some numbers =>
    let placed := slotted (slotCount items.length) [] numbers
    (placed.mergeSort fun a b => a.1 ≤ b.1).map (·.2)

end Acceptance.Value

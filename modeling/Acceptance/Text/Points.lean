import Acceptance.Text.Quoted
/-!
Texts that may hold halves of surrogate pairs. A half is a code point but no character, so such a
text is a list of code points. Escapes in data files can write one.
-/
namespace Acceptance.Text

def isHalf (n : Nat) : Bool := 0xd800 ≤ n && n < 0xe000

def points (s : String) : List Nat := s.toList.map Char.toNat

/-- The text of code points that are all characters. -/
def ofPoints? (ps : List Nat) : Option String :=
  if ps.any isHalf then none else some (String.ofList (ps.map Char.ofNat))

/-- The characters of code points, with the replacement character in the place of halves. -/
def visible (ps : List Nat) : List Char :=
  ps.map fun n => if isHalf n then '\ufffd' else Char.ofNat n

/-- Does a text come before another, or is it the same? The first code point that differs
decides. -/
def pointsLe : List Nat → List Nat → Bool
  | [], _ => true
  | _ :: _, [] => false
  | m :: ms, n :: ns => if m = n then pointsLe ms ns else m < n

/-- A code point inside quotes; halves are written by number. -/
def escapePoint (quote : Char) (n : Nat) : List Char :=
  if isHalf n then '\\' :: 'u' :: hex 4 n else escapeChar quote (Char.ofNat n)

/-- Code points as a quoted source literal. -/
def quotePoints (ps : List Nat) : List Char :=
  let q := quoteFor (visible ps)
  q :: ps.flatMap (escapePoint q) ++ [q]

def quotedPoints (ps : List Nat) : String := String.ofList (quotePoints ps)

theorem isHalf_toNat (c : Char) : isHalf c.toNat = false := by
  have h := c.valid
  simp only [isHalf, Char.toNat, Bool.and_eq_false_iff, decide_eq_false_iff_not]
  simp only [UInt32.isValidChar, Nat.isValidChar] at h
  omega

@[simp] theorem visible_points (s : String) : visible (points s) = s.toList := by
  simp [visible, points, isHalf_toNat, Function.comp_def]

theorem ofPoints?_points (s : String) : ofPoints? (points s) = some s := by
  simp [ofPoints?, points, isHalf_toNat, Function.comp_def]

/-- A text without halves is quoted as ever. -/
theorem quotedPoints_points (s : String) : quotedPoints (points s) = quoted s := by
  simp [quotedPoints, quotePoints, quoted, quote, points, escapePoint, isHalf_toNat,
    List.flatMap_map, visible, Function.comp_def]

end Acceptance.Text

import Acceptance.Text.WordChar
import Acceptance.Value.Access
/-!
Literals in a statement: quoted texts, numbers that stand free, and the words `true` and `false`.
Each gets a name from the words around it.
-/
namespace Acceptance

/-- The literal of a numeral: an integer without a fraction, else a binary64 number. -/
def Numeral.literal (n : Numeral) : Except Misfit Literal :=
  match n.fraction with
  | some _ => .ok (.float n.toBinary64)
  | none =>
    if n.whole.length > maxDigits then .error (.integerTooLong n.whole.length)
    else .ok (.int (signed n.negative (digitsValue n.whole)))

namespace Spec

open Text

/-- What stands right before a place in a text. -/
inductive Edge
  | free
  | point
  | word
  deriving DecidableEq, Repr

def Edge.after (c : Char) : Edge :=
  if isWordChar c then .word else if c = '.' then .point else .free

inductive Item
  | word (cs : List Char)
  | quoted (cs : List Char)
  | number (n : Numeral)
  | truth (b : Bool)
  deriving DecidableEq, Repr

def isLetter (c : Char) : Bool := ('a' ≤ c && c ≤ 'z') || ('A' ≤ c && c ≤ 'Z')

def isNameChar (c : Char) : Bool := isLetter c || ('0' ≤ c && c ≤ '9') || c == '_'

/-- Does the text start with a character that a word or a number could go on with? -/
def startsWithWordChar : List Char → Bool
  | [] => false
  | c :: _ => isWordChar c

def startsWithPoint : List Char → Bool
  | '.' :: _ => true
  | _ => false

/-- A number stands free of word characters and points on both sides. -/
def numberItem? (edge : Edge) (cs : List Char) : Option (Item × List Char) :=
  match edge, Numeral.take? cs with
  | .free, some (n, rest) =>
    if startsWithWordChar rest || startsWithPoint rest then none else some (.number n, rest)
  | _, _ => none

/-- A run of name characters; it is a truth value if it is such a word on its own. -/
def wordItem (edge : Edge) (run rest : List Char) : Item :=
  if edge = .word ∨ startsWithWordChar rest then .word run
  else if run = "true".toList then .truth true
  else if run = "false".toList then .truth false
  else .word run

/-- The quoted text whose opening quote has been passed. -/
def quotedItem? (rest : List Char) : Option (Item × List Char) :=
  if '"' ∈ rest then
    some (.quoted (rest.takeWhile (· ≠ '"')), (rest.dropWhile (· ≠ '"')).drop 1)
  else none

/-- The item at the start of a text, what stands before the rest, and the rest. -/
def takeItem? (edge : Edge) : List Char → Option (Item × Edge × List Char)
  | [] => none
  | c :: cs =>
    if c = '"' then (quotedItem? cs).map fun (i, rest) => (i, .free, rest)
    else if isLetter c then
      let run := c :: cs.takeWhile isNameChar
      let rest := cs.dropWhile isNameChar
      some (wordItem edge run rest, .word, rest)
    else (numberItem? edge (c :: cs)).map fun (i, rest) => (i, .word, rest)

theorem length_dropWhile_le (p : Char → Bool) (cs : List Char) :
    (cs.dropWhile p).length ≤ cs.length := by
  induction cs with
  | nil => simp
  | cons c cs ih =>
    rw [List.dropWhile_cons]
    split
    · exact Nat.le_succ_of_le ih
    · exact Nat.le_refl _

theorem length_takeFraction_le (cs : List Char) :
    (Numeral.takeFraction cs).2.length ≤ cs.length := by
  unfold Numeral.takeFraction
  split
  · split
    · exact Nat.le_refl _
    · exact Nat.le_succ_of_le (length_dropWhile_le _ _)
  · exact Nat.le_refl _

theorem length_takeUnsigned?_lt {negative : Bool} {cs rest : List Char} {n : Numeral}
    (h : Numeral.takeUnsigned? negative cs = some (n, rest)) : rest.length < cs.length := by
  unfold Numeral.takeUnsigned? at h
  split at h
  · simp at h
  · next hne =>
    simp only [Option.some.injEq, Prod.mk.injEq] at h
    obtain ⟨-, rfl⟩ := h
    cases cs with
    | nil => simp at hne
    | cons c cs =>
      have hc : isDigit c = true := by
        cases hd : isDigit c
        · simp [hd] at hne
        · rfl
      have := length_takeFraction_le ((c :: cs).dropWhile isDigit)
      have hle := length_dropWhile_le isDigit cs
      rw [List.dropWhile_cons, if_pos hc] at this ⊢
      simp only [List.length_cons]
      omega

theorem length_take?_lt {cs rest : List Char} {n : Numeral}
    (h : Numeral.take? cs = some (n, rest)) : rest.length < cs.length := by
  unfold Numeral.take? at h
  split at h
  · exact Nat.lt_succ_of_lt (length_takeUnsigned?_lt h)
  · exact length_takeUnsigned?_lt h

theorem length_takeItem?_lt {edge edge' : Edge} {cs rest : List Char} {i : Item}
    (h : takeItem? edge cs = some (i, edge', rest)) : rest.length < cs.length := by
  cases cs with
  | nil => simp [takeItem?] at h
  | cons c cs =>
    simp only [takeItem?] at h
    split at h
    · obtain ⟨⟨j, r⟩, hj, hr⟩ := Option.map_eq_some_iff.1 h
      simp only [quotedItem?] at hj
      split at hj
      · have := length_dropWhile_le (fun d => decide (d ≠ '"')) cs
        simp only [Option.some.injEq, Prod.mk.injEq] at hj hr
        obtain ⟨-, rfl⟩ := hj
        obtain ⟨-, -, rfl⟩ := hr
        simp only [List.length_drop, List.length_cons]
        omega
      · simp at hj
    · split at h
      · have := length_dropWhile_le isNameChar cs
        simp only [Option.some.injEq, Prod.mk.injEq] at h
        obtain ⟨-, -, rfl⟩ := h
        simp only [List.length_cons]
        omega
      · obtain ⟨⟨j, r⟩, hj, hr⟩ := Option.map_eq_some_iff.1 h
        simp only [Prod.mk.injEq] at hr
        obtain ⟨-, -, rfl⟩ := hr
        simp only [numberItem?] at hj
        split at hj
        · next n r' htake =>
          split at hj
          · simp at hj
          · simp only [Option.some.injEq, Prod.mk.injEq] at hj
            obtain ⟨-, rfl⟩ := hj
            exact length_take?_lt htake
        · simp at hj

/-- The items of a text; what is between them is passed over. -/
def items (edge : Edge) (cs : List Char) : List Item :=
  match _h : takeItem? edge cs with
  | some (i, edge', rest) => i :: items edge' rest
  | none =>
    match cs with
    | [] => []
    | c :: cs => items (.after c) cs
termination_by cs.length
decreasing_by
  · exact length_takeItem?_lt _h
  · simp

/-- Words that name nothing. -/
def stopWords : List String :=
  ["a", "an", "and", "are", "as", "at", "be", "been", "by", "for", "from", "has", "have", "in",
   "into", "is", "it", "its", "of", "on", "or", "than", "that", "the", "then", "there", "these",
   "this", "those", "to", "was", "were", "with"]

/-- The name that an item gives to a literal near it. -/
def Item.name? : Item → Option String
  | .word cs =>
    let w := String.ofList (cs.map Char.toLower)
    if w ∈ stopWords then none else some w
  | _ => none

/-- The literal that an item stands for. -/
def Item.literal? : Item → Option (Except Misfit Literal)
  | .word _ => none
  | .quoted cs => some (.ok (.text (String.ofList cs)))
  | .number n => some n.literal
  | .truth b => some (.ok (.boolean b))

/-- The nearest name before a literal, else the nearest behind it. `before` runs backwards. -/
def nameAt (before behind : List Item) : String :=
  ((before.findSome? Item.name?).or (behind.findSome? Item.name?)).getD "value"

/-- A name that has been given before gets a number. -/
def numbered (base : String) (uses : Nat) : String := if uses > 1 then s!"{base}_{uses}" else base

/-- Names the literals. `before` holds the items passed, backwards, and `given` the names. -/
def nameItems (before : List Item) (given : List String) :
    List Item → Except Misfit (List Parameter)
  | [] => .ok []
  | i :: is =>
    match i.literal? with
    | none => nameItems (i :: before) given is
    | some literal => do
      let base := nameAt before is
      let p := Parameter.mk (numbered base (given.count base + 1)) (← literal)
      return p :: (← nameItems (i :: before) (base :: given) is)

/-- The literals of a statement, as parameters. -/
def extract (statement : String) : Except Misfit (List Parameter) :=
  nameItems [] [] (items .free statement.toList)

end Spec
end Acceptance

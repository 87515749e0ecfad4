import Acceptance.Text.Phrase
/-!
How alike two texts are: twice the number of code points that lie in matching blocks, over the sum
of the two lengths. The blocks are found by taking the longest one first and then searching on both
sides of it.
-/
namespace Acceptance.Text

/-- An unbroken part that two texts have in common, by its places and its length. -/
structure Block where
  left : Nat
  right : Nat
  size : Nat
  deriving DecidableEq, Repr

/-- For a code point of the left text, the length of the common run that ends at each place of the
right one. `before` has the lengths for the one before, each one place earlier. -/
def runRow (a : Nat) : List Nat → List (Nat × Bool) → List Nat
  | n :: before, (b, anchor) :: bs =>
    (if anchor && a == b then n + 1 else 0) :: runRow a before bs
  | _, _ => []

/-- The longer of a block and the runs that end at place `i` on the left and at `j`, `j + 1`, ... on
the right. Only a longer run takes the place of the block. -/
def longerBlock (i : Nat) : Nat → Block → List Nat → Block
  | _, best, [] => best
  | j, best, n :: row =>
    longerBlock i (j + 1) (if best.size < n then ⟨i + 1 - n, j + 1 - n, n⟩ else best) row

def longestFrom (bs : List (Nat × Bool)) : Nat → List Nat → Block → List Nat → Block
  | _, _, best, [] => best
  | i, row, best, a :: as =>
    let next := runRow a (0 :: row) bs
    longestFrom bs (i + 1) next (longerBlock i 0 best next) as

/-- The longest block of characters that may anchor one, the first of several. -/
def longestBlock (as : List Nat) (bs : List (Nat × Bool)) : Block :=
  longestFrom bs 0 (List.replicate bs.length 0) ⟨0, 0, 0⟩ as

def commonLength : List Nat → List (Nat × Bool) → Nat
  | a :: as, (b, _) :: bs => if a = b then commonLength as bs + 1 else 0
  | _, _ => 0

/-- A block made longer on both sides by whatever characters agree. -/
def Block.extend (k : Block) (as : List Nat) (bs : List (Nat × Bool)) : Block :=
  let back := commonLength (as.take k.left).reverse (bs.take k.right).reverse
  let ahead := commonLength (as.drop (k.left + k.size)) (bs.drop (k.right + k.size))
  ⟨k.left - back, k.right - back, back + k.size + ahead⟩

def bestBlock (as : List Nat) (bs : List (Nat × Bool)) : Block :=
  (longestBlock as bs).extend as bs

/-- The number of characters in matching blocks. -/
def matchedCount (as : List Nat) (bs : List (Nat × Bool)) : Nat :=
  match bestBlock as bs with
  | ⟨i, j, size⟩ =>
    if 0 < size ∧ i < as.length then
      size + matchedCount (as.take i) (bs.take j) +
        matchedCount (as.drop (i + size)) (bs.drop (j + size))
    else 0
termination_by as.length
decreasing_by
  · simp only [List.length_take]; omega
  · simp only [List.length_drop]; omega

/-- In a text of two hundred characters or more, those that make up more than a hundredth of it
anchor no block. -/
def anchored (cs : List Nat) : List (Nat × Bool) :=
  if cs.length < 200 then cs.map (·, true)
  else cs.map fun c => (c, decide (cs.count c ≤ cs.length / 100 + 1))

/-- A likeness between zero and one, as matched characters over all. -/
structure Likeness where
  matched : Nat
  total : Nat
  deriving DecidableEq, Repr

def likeness (as bs : List Nat) : Likeness :=
  ⟨2 * matchedCount as (anchored bs), as.length + bs.length⟩

/-- Is the likeness at least `n / d`? -/
def Likeness.atLeast (l : Likeness) (n d : Nat) : Bool := n * l.total ≤ d * l.matched

def Likeness.less (l m : Likeness) : Bool := l.matched * m.total < m.matched * l.total

/-- Is the first of two scored texts the better one? The greater text wins a tie. -/
def better (x y : Likeness × Phrase) : Bool :=
  y.1.less x.1 || (!x.1.less y.1 && pointsLe y.2.points x.2.points)

/-- At most three of the texts, the most alike first, each at least two fifths alike. -/
def closest (text : Phrase) (choices : List Phrase) : List Phrase :=
  let scored := choices.map fun c => (likeness c.points text.points, c)
  let close := scored.filter fun x => x.1.atLeast 2 5
  ((close.mergeSort better).take 3).map (·.2)

end Acceptance.Text

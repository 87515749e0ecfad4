/-!
Blank characters and the trimming of text. Blank are the white space characters of every script and
the four information separators of ASCII.
-/
namespace Acceptance.Text

def isBlank (c : Char) : Bool :=
  let n := c.toNat
  (9 ≤ n && n ≤ 13) || (28 ≤ n && n ≤ 32) || n == 0x85 || n == 0xa0 || n == 0x1680 ||
    (0x2000 ≤ n && n ≤ 0x200a) || n == 0x2028 || n == 0x2029 || n == 0x202f || n == 0x205f ||
    n == 0x3000

def trimStart (cs : List Char) : List Char := cs.dropWhile isBlank

def trimEnd (cs : List Char) : List Char := (cs.reverse.dropWhile isBlank).reverse

def trim (cs : List Char) : List Char := trimEnd (trimStart cs)

/-- The first run of characters that are not blank. -/
def firstWord (cs : List Char) : List Char := (trimStart cs).takeWhile (!isBlank ·)

/-- The last run of characters that are not blank. -/
def lastWord (cs : List Char) : List Char :=
  ((cs.reverse.dropWhile isBlank).takeWhile (!isBlank ·)).reverse

example : firstWord " a bc ".toList = ['a'] ∧ lastWord " a bc ".toList = ['b', 'c'] := by decide

end Acceptance.Text

/-!
Lines of a text. A line ends at any of the line and paragraph breaks of every script; a carriage
return with a line feed after it is one break. A break at the very end starts no further line.
-/
namespace Acceptance.Text

def isBreak (c : Char) : Bool :=
  let n := c.toNat
  (10 ≤ n && n ≤ 13) || (28 ≤ n && n ≤ 30) || n == 0x85 || n == 0x2028 || n == 0x2029

/-- Puts a character at the start of the first line, and starts one if there is none. -/
def consLine (c : Char) : List (List Char) → List (List Char)
  | [] => [[c]]
  | l :: ls => (c :: l) :: ls

def lines : List Char → List (List Char)
  | [] => []
  | '\r' :: '\n' :: cs => [] :: lines cs
  | c :: cs => if isBreak c then [] :: lines cs else consLine c (lines cs)

/-- Every line break of a stored text, `\r\n` and `\r` alike, read as a line feed. -/
def unifyBreaks : List Char → List Char
  | [] => []
  | '\r' :: '\n' :: cs => '\n' :: unifyBreaks cs
  | c :: cs => (if c = '\r' then '\n' else c) :: unifyBreaks cs

example : lines "a\r\nb\n\nc\r".toList = [['a'], ['b'], [], ['c']] := by decide
example : unifyBreaks "a\r\nb\rc".toList = "a\nb\nc".toList := by decide

end Acceptance.Text

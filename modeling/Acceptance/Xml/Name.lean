import Acceptance.Text.Runs
/-!
Characters and names of XML. The classes of letters beyond ASCII are those of the fourth edition;
the runs count from code point 128.
-/
namespace Acceptance.Xml

def letterRuns : List Nat :=
  [64, 23, 1, 31, 1, 58, 2, 11, 2, 8, 1, 53, 1, 68, 9, 36, 3, 2, 4, 30, 56, 89, 18, 7, 196, 1, 1, 3,
   1, 1, 1, 20, 1, 44, 1, 7, 3, 1, 1, 1, 1, 1, 1, 1, 1, 18, 13, 12, 1, 66, 1, 12, 1, 36, 14, 53, 2,
   2, 2, 2, 3, 28, 2, 8, 2, 2, 55, 38, 2, 1, 7, 38, 73, 27, 5, 3, 46, 26, 6, 10, 38, 71, 2, 5, 1,
   15, 1, 4, 1, 1, 15, 2, 542, 53, 3, 1, 26, 10, 35, 8, 2, 2, 2, 22, 1, 7, 1, 1, 3, 4, 34, 2, 1, 3,
   14, 2, 19, 6, 4, 2, 2, 22, 1, 7, 1, 2, 1, 2, 1, 2, 31, 4, 1, 1, 19, 3, 16, 7, 1, 1, 1, 3, 1, 22,
   1, 7, 1, 2, 1, 5, 3, 1, 34, 1, 36, 8, 2, 2, 2, 22, 1, 7, 1, 2, 2, 4, 3, 1, 30, 2, 1, 3, 35, 6, 3,
   3, 1, 4, 3, 2, 1, 1, 1, 2, 3, 2, 3, 3, 3, 8, 1, 3, 75, 8, 1, 3, 1, 23, 1, 10, 1, 5, 38, 2, 35, 8,
   1, 3, 1, 23, 1, 10, 1, 5, 36, 1, 1, 2, 35, 8, 1, 3, 1, 23, 1, 16, 38, 2, 159, 46, 1, 1, 1, 2, 12,
   6, 59, 2, 1, 1, 2, 2, 1, 1, 2, 1, 6, 4, 1, 7, 1, 3, 1, 1, 1, 1, 2, 2, 1, 2, 1, 1, 1, 2, 9, 1, 2,
   5, 123, 8, 1, 33, 310, 38, 10, 39, 9, 1, 1, 2, 1, 3, 1, 1, 1, 2, 1, 5, 41, 1, 1, 1, 1, 1, 11, 1,
   1, 1, 1, 1, 3, 2, 3, 1, 5, 3, 1, 1, 1, 1, 1, 1, 1, 1, 3, 2, 3, 2, 1, 1, 40, 1, 9, 1, 2, 1, 2, 2,
   7, 2, 1, 1, 1, 7, 40, 1, 4, 1, 8, 1, 3078, 156, 4, 90, 6, 22, 2, 6, 2, 38, 2, 6, 2, 8, 1, 1, 1,
   1, 1, 1, 1, 31, 2, 53, 1, 7, 1, 1, 3, 3, 1, 7, 3, 4, 2, 6, 4, 13, 5, 3, 1, 7, 297, 1, 3, 2, 2, 1,
   81, 3, 3716, 1, 25, 9, 23, 84, 12, 90, 10, 40, 7379, 20902, 3162, 11172]

/-- Digits, combining marks and extenders, which names may go on with. -/
def extraRuns : List Nat :=
  [55, 1, 536, 2, 46, 70, 26, 2, 37, 1, 251, 4, 266, 17, 1, 23, 1, 3, 1, 1, 1, 2, 1, 1, 123, 1, 10,
   8, 13, 10, 6, 1, 101, 15, 2, 2, 1, 4, 2, 10, 519, 3, 56, 1, 1, 16, 3, 4, 13, 2, 2, 10, 17, 3, 56,
   1, 1, 7, 2, 2, 2, 3, 9, 1, 10, 2, 2, 10, 18, 1, 57, 1, 1, 5, 4, 2, 2, 3, 24, 12, 15, 3, 56, 1, 1,
   8, 1, 3, 1, 3, 24, 10, 17, 3, 56, 1, 1, 6, 3, 2, 2, 3, 8, 2, 14, 10, 18, 2, 58, 5, 3, 3, 1, 4, 9,
   1, 15, 9, 17, 3, 58, 7, 1, 3, 1, 4, 7, 2, 15, 10, 18, 2, 58, 7, 1, 3, 1, 4, 7, 2, 15, 10, 18, 2,
   58, 6, 2, 3, 1, 4, 9, 1, 14, 10, 193, 1, 2, 7, 11, 9, 1, 10, 87, 1, 2, 6, 1, 2, 9, 1, 1, 6, 2,
   10, 62, 2, 6, 10, 11, 1, 1, 1, 1, 1, 4, 2, 49, 20, 1, 6, 4, 6, 1, 1, 1, 21, 3, 7, 1, 1, 4374, 13,
   4, 1, 3875, 1, 36, 6, 1, 5, 99, 2, 2, 2, 93, 3]

/-- May the character stand in a document at all? -/
def isChar (c : Char) : Bool :=
  let n := c.toNat
  (32 ≤ n && n != 0xfffe && n != 0xffff) || c == '\t' || c == '\n' || c == '\r'

def isSpace (c : Char) : Bool := c == ' ' || c == '\t' || c == '\n' || c == '\r'

def isLetter (c : Char) : Bool :=
  if c.toNat < 128 then ('a' ≤ c && c ≤ 'z') || ('A' ≤ c && c ≤ 'Z') || c == '_'
  else Text.inRuns false letterRuns (c.toNat - 128)

def isNameChar (c : Char) : Bool :=
  isLetter c ||
    if c.toNat < 128 then ('0' ≤ c && c ≤ '9') || c == '-' || c == '.'
    else Text.inRuns false extraRuns (c.toNat - 128)

/-- A name as it is written: a base, and before it the shorthand of a namespace. -/
structure Name where
  space : Option String
  base : String
  deriving DecidableEq, Repr

def Name.written (n : Name) : String :=
  match n.space with
  | none => n.base
  | some space => s!"{space}:{n.base}"

/-- A name without a colon at the start of a text. -/
def takeWord? (cs : List Char) : Option (String × List Char) :=
  match cs with
  | c :: _ =>
    if isLetter c then some (String.ofList (cs.takeWhile isNameChar), cs.dropWhile isNameChar)
    else none
  | [] => none

def takeName? (cs : List Char) : Option (Name × List Char) :=
  match takeWord? cs with
  | some (word, ':' :: rest) => (takeWord? rest).map fun (base, rest) => (⟨some word, base⟩, rest)
  | some (word, rest) => some (⟨none, word⟩, rest)
  | none => none

/-- What is behind a fixed text at the start. -/
def after? (p cs : List Char) : Option (List Char) :=
  if p.isPrefixOf cs then some (cs.drop p.length) else none

/-- What is before and behind the first place where a fixed text stands. -/
def splitAt? (p : List Char) : List Char → Option (List Char × List Char)
  | [] => if p.isEmpty then some ([], []) else none
  | c :: cs =>
    match after? p (c :: cs) with
    | some rest => some ([], rest)
    | none => (splitAt? p cs).map fun (before, rest) => (c :: before, rest)

end Acceptance.Xml

import Acceptance.Text.Blank
/-!
Slugs: names made of `a` to `z`, `0` to `9` and one joining character, for files and functions.
-/
namespace Acceptance.Text

/-- Lower case, as far as a slug can tell. Outside ASCII only two characters have an ASCII letter
in their lower case, the dotted capital I and the Kelvin sign. -/
def lower (c : Char) : List Char :=
  if c = '\u0130' then ['i', '\u0307'] else if c = '\u212a' then ['k'] else [c.toLower]

def isSlugChar (c : Char) : Bool := ('a' ≤ c && c ≤ 'z') || ('0' ≤ c && c ≤ '9')

/-- The maximal runs of slug characters. -/
def slugRuns : List Char → List (List Char)
  | [] => []
  | c :: cs =>
    if isSlugChar c then
      match cs with
      | [] => [[c]]
      | d :: _ =>
        if isSlugChar d then
          match slugRuns cs with
          | [] => [[c]]
          | r :: rs => (c :: r) :: rs
        else [c] :: slugRuns cs
    else slugRuns cs

/-- The runs of slug characters of the lower-case text, joined by underscores. -/
def underscored (s : String) : String :=
  String.intercalate "_" ((slugRuns (s.toList.flatMap lower)).map String.ofList)

/-- Blank runs become hyphens; `inGap` tells that the one before was blank. -/
def hyphenGaps (inGap : Bool) : List Char → List Char
  | [] => []
  | c :: cs =>
    if isBlank c then (if inGap then hyphenGaps true cs else '-' :: hyphenGaps true cs)
    else c :: hyphenGaps false cs

def trimHyphens (cs : List Char) : List Char :=
  ((cs.dropWhile (· = '-')).reverse.dropWhile (· = '-')).reverse

/-- Only slug characters, blanks and hyphens of the lower-case text count, and each run of blanks
is written as one hyphen. -/
def hyphenated (s : String) : String :=
  let kept := (trim (s.toList.flatMap lower)).filter fun c => isSlugChar c || isBlank c || c == '-'
  String.ofList (trimHyphens (hyphenGaps false kept))

example : slugRuns "_ab--c".toList = [['a', 'b'], ['c']] := by decide

end Acceptance.Text

import Acceptance.Yaml.Cursor
/-!
The texts of scalars: quoted ones, blocks of lines, and plain ones. Line breaks inside are folded,
except in blocks that are taken literally.
-/
namespace Acceptance.Yaml

/-- Line breaks with blanks around them, the last one first. A mark between documents may not
stand there. -/
def takeBreaks (p : Cursor) (breaks : List Char) : Except Failure (List Char × Cursor) :=
  if atSeparator p.rest then .error .malformed
  else
    let q := p.skip isGap
    match q.takeBreak? with
    | some (c, r) =>
      if r.rest.length < p.rest.length then takeBreaks r (c :: breaks) else .error .malformed
    | none => .ok (breaks, q)
termination_by p.rest.length

/-- What a first line break and those behind it, last one first, are folded into. -/
def folded (first : Char) (breaks : List Char) : List Char :=
  if first ≠ '\n' then breaks ++ [first] else if breaks = [] then [' '] else breaks

def escaped? : Char → Option Char
  | '0' => some '\x00'
  | 'a' => some '\x07'
  | 'b' => some '\x08'
  | 't' => some '\t'
  | '\t' => some '\t'
  | 'n' => some '\n'
  | 'v' => some '\x0b'
  | 'f' => some '\x0c'
  | 'r' => some '\r'
  | 'e' => some '\x1b'
  | ' ' => some ' '
  | '"' => some '"'
  | '\\' => some '\\'
  | '/' => some '/'
  | 'N' => some (Char.ofNat 0x85)
  | '_' => some (Char.ofNat 0xa0)
  | 'L' => some (Char.ofNat 0x2028)
  | 'P' => some (Char.ofNat 0x2029)
  | _ => none

/-- The number of hexadecimal digits behind a letter. -/
def escapeWidth? : Char → Option Nat
  | 'x' => some 2
  | 'u' => some 4
  | 'U' => some 8
  | _ => none

def hexValue? (c : Char) : Option Nat :=
  if '0' ≤ c && c ≤ '9' then some (c.toNat - 48)
  else if 'a' ≤ c && c ≤ 'f' then some (c.toNat - 87)
  else if 'A' ≤ c && c ≤ 'F' then some (c.toNat - 55)
  else none

/-- The number that exactly so many hexadecimal digits write. -/
def hexNumber? (width : Nat) (cs : List Char) : Option Nat := do
  let ds ← (cs.take width).mapM hexValue?
  if ds.length = width then some (ds.foldl (fun n d => 16 * n + d) 0) else none

/-- The code point with a number that an escape gives. -/
def pointOf (n : Nat) : Except Failure Nat :=
  if n < 0x110000 then .ok n
  else .error (.misfit (if n < 0x80000000 then .noCharacter else .tooLarge))

/-- The code points that the escape behind a backslash stands for, last one first. -/
def takeEscape (p : Cursor) : Except Failure (List Nat × Cursor) :=
  match p.rest with
  | [] => .error .malformed
  | c :: cs =>
    match escaped? c, escapeWidth? c with
    | some d, _ => .ok ([d.toNat], p.step)
    | none, some width =>
      match hexNumber? width cs with
      | some n => do return ([← pointOf n], p.advance (width + 1))
      | none => .error .malformed
    | none, none => do
      if isLineBreak c then
        let (breaks, q) ← takeBreaks p.step []
        return (breaks.map Char.toNat, q)
      else .error .malformed

/-- The blanks inside a quoted scalar, last one first, with line breaks folded. -/
def takeQuotedGap (p : Cursor) : Except Failure (List Char × Cursor) :=
  let q := p.skip isGap
  match q.takeBreak? with
  | some (first, r) => do
    let (breaks, r) ← takeBreaks r []
    return (folded first breaks, r)
  | none =>
    if q.rest = [] then .error .malformed else .ok ((p.rest.takeWhile isGap).reverse, q)

/-- The rest of a quoted scalar; `text` is what came before, last code point first. -/
def takeQuotedFrom (quote : Char) (p : Cursor) (text : List Nat) :
    Except Failure (List Nat × Cursor) := do
  let c :: cs := p.rest | .error .malformed
  let next : Option (List Nat × Cursor) ←
    if isGap c || isLineBreak c then do
      let (gap, q) ← takeQuotedGap p
      pure (some (gap.map Char.toNat, q))
    else if c = quote then
      if quote = '\'' && startsWith quote cs then pure (some ([c.toNat], p.step.step))
      else pure none
    else if quote = '"' && c = '\\' then some <$> takeEscape p.step
    else pure (some ([c.toNat], p.step))
  match next with
  | none => return (text.reverse, p.step)
  | some (new, q) =>
    if q.rest.length < p.rest.length then takeQuotedFrom quote q (new ++ text)
    else .error .malformed
termination_by p.rest.length

/-- The code points of a quoted scalar that starts at the place. -/
def takeQuoted (p : Cursor) : Except Failure (List Nat × Cursor) :=
  match p.rest with
  | quote :: _ => takeQuotedFrom quote p.step []
  | [] => .error .malformed

/-! ### Blocks -/

/-- How the line breaks at the end of a block count: as one, not at all, or each. -/
inductive Ending
  | one
  | strip
  | keep
  deriving DecidableEq, Repr

def takeEnding (p : Cursor) : Ending × Cursor :=
  match p.rest with
  | '+' :: _ => (.keep, p.step)
  | '-' :: _ => (.strip, p.step)
  | _ => (.one, p)

/-- The indentation that a block's head gives. -/
def takeIncrement (p : Cursor) : Except Failure (Option Nat × Cursor) :=
  match p.rest with
  | c :: _ =>
    if c = '0' then .error .malformed
    else if '1' ≤ c && c ≤ '9' then .ok (some (c.toNat - 48), p.step)
    else .ok (none, p)
  | [] => .ok (none, p)

def takeBlockHead (p : Cursor) : Except Failure (Ending × Option Nat × Cursor) := do
  let (ending, q) := takeEnding p
  let (increment, r) ← takeIncrement q
  let (ending, r) := if ending = .one then takeEnding r else (ending, r)
  if atSpace r.rest then return (ending, increment, ← r.skipLine) else .error .malformed

/-- The line breaks before the first line, last one first, and the widest indentation up to it. -/
def takeIndentation (p : Cursor) (breaks : List Char) (widest : Nat) :
    List Char × Nat × Cursor :=
  if _h : p.rest = [] then (breaks, widest, p)
  else if startsWith ' ' p.rest then takeIndentation p.step breaks (max widest p.step.column)
  else
    match p.takeBreak? with
    | some (c, _) => takeIndentation p.step (c :: breaks) widest
    | none => (breaks, widest, p)
termination_by p.rest.length
decreasing_by all_goals exact Cursor.length_step_lt _h

def skipIndent (width : Nat) (p : Cursor) : Cursor :=
  p.advance (min (p.rest.takeWhile (· == ' ')).length (width - p.column))

/-- Line breaks with indentation around them, last one first. -/
def takeBlockBreaks (width : Nat) (p : Cursor) (breaks : List Char) : List Char × Cursor :=
  let q := skipIndent width p
  match q.takeBreak? with
  | some (c, r) =>
    if r.rest.length < p.rest.length then takeBlockBreaks width r (c :: breaks) else (breaks, q)
  | none => (breaks, q)
termination_by p.rest.length

/-- The lines of a block; all texts are kept last character first. Given are the line breaks before
the place, and what came before them. The result has text, last line break and breaks behind it. -/
def takeBlockLines (isFolded : Bool) (width : Nat) (p : Cursor) (breaks text : List Char) :
    List Char × List Char × List Char × Cursor :=
  if p.column = width ∧ p.rest ≠ [] then
    let line := p.rest.takeWhile (!isLineBreak ·)
    let q := p.advance line.length
    let (last, q) := match q.takeBreak? with
      | some (c, q) => ([c], q)
      | none => ([], q)
    let (next, r) := takeBlockBreaks width q []
    let text := line.reverse ++ (breaks ++ text)
    if r.column = width ∧ r.rest ≠ [] then
      let isPlain := fun (cs : List Char) => !cs.head?.any isGap
      let joint :=
        if isFolded && last == ['\n'] && isPlain p.rest && isPlain r.rest then
          if next = [] then [' '] else []
        else last
      if r.rest.length < p.rest.length then
        takeBlockLines isFolded width r next (joint ++ text)
      else (text, last, next, r)
    else (text, last, next, r)
  else (text, [], breaks, p)
termination_by p.rest.length

/-- The text of a block scalar whose indicator is at the place, in a collection of the given
indentation. -/
def takeBlock (isFolded : Bool) (indent : Int) (p : Cursor) :
    Except Failure (List Char × Cursor) := do
  let (ending, increment, p) ← takeBlockHead p.step
  let least := max 1 (indent + 1).toNat
  let (breaks, width, p) := match increment with
    | some n =>
      let width := least + n - 1
      let (breaks, p) := takeBlockBreaks width p []
      (breaks, width, p)
    | none =>
      let (breaks, widest, p) := takeIndentation p [] 0
      (breaks, max least widest, p)
  let (text, last, breaks, p) := takeBlockLines isFolded width p breaks []
  let tail := match ending with
    | .strip => []
    | .one => last
    | .keep => breaks ++ last
  return ((tail ++ text).reverse, p)

/-! ### Plain scalars -/

def isFlowMark (c : Char) : Bool := c == ',' || c == '[' || c == ']' || c == '\x7b' || c == '\x7d'

/-- The length of the part of a plain scalar up to the next blank. -/
def plainLength (inFlow : Bool) : List Char → Nat
  | [] => 0
  | c :: cs =>
    let endsKey := atGap cs || (inFlow && cs.head?.any isFlowMark)
    if isGap c || isLineBreak c || (c == ':' && endsKey) ||
        (inFlow && (isFlowMark c || c == '?')) then 0
    else plainLength inFlow cs + 1

/-- Line breaks and spaces after a line of a plain scalar, last break first; none if a mark between
documents follows. -/
def takePlainBreaks (p : Cursor) (breaks : List Char) : Option (List Char) × Cursor :=
  if _h : p.rest = [] then (some breaks, p)
  else if startsWith ' ' p.rest then takePlainBreaks p.step breaks
  else
    match p.takeBreak? with
    | some (c, _) =>
      if atSeparator p.step.rest then (none, p.step) else takePlainBreaks p.step (c :: breaks)
    | none => (some breaks, p)
termination_by p.rest.length
decreasing_by all_goals exact Cursor.length_step_lt _h

/-- The blanks inside a plain scalar, last one first, with line breaks folded, and whether there
were line breaks. Nothing is inside if the scalar ends here. -/
def takePlainGap (p : Cursor) : List Char × Bool × Cursor :=
  let q := p.skipSpaces
  match q.takeBreak? with
  | some (first, r) =>
    if atSeparator r.rest then ([], true, r)
    else
      match takePlainBreaks r [] with
      | (none, r) => ([], true, r)
      | (some breaks, r) => (folded first breaks, true, r)
  | none => (List.replicate (q.index - p.index) ' ', false, q)

/-- The rest of a plain scalar, with the text so far and the blanks behind it, both last character
first. Tells also whether it ends at the start of a line. -/
def takePlainFrom (inFlow : Bool) (indent : Int) (p : Cursor) (text gap : List Char)
    (fresh : Bool) : List Char × Bool × Cursor :=
  let n := plainLength inFlow p.rest
  if startsWith '#' p.rest || n = 0 then (text.reverse, fresh, p)
  else
    let text := (p.rest.take n).reverse ++ (gap ++ text)
    let (gap, fresh, q) := takePlainGap (p.advance n)
    if gap = [] ∨ startsWith '#' q.rest ∨ (¬inFlow ∧ q.column < indent) then
      (text.reverse, fresh, q)
    else if q.rest.length < p.rest.length then takePlainFrom inFlow indent q text gap fresh
    else (text.reverse, fresh, q)
termination_by p.rest.length

end Acceptance.Yaml

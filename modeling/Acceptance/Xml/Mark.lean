import Acceptance.Xml.Reference
/-!
The marks that the part of a document before its root is made of. White space only parts them.
-/
namespace Acceptance.Xml

/-- What kind of name a word is: one without a colon, one with a shorthand before it, or neither. -/
inductive NameForm
  | plain
  | qualified
  | other
  deriving DecidableEq, Repr

inductive Mark
  /-- The start of a declaration, with its keyword. -/
  | opening (keyword : String)
  | close
  | openBracket
  | closeBracket
  | openParen
  /-- A closing bracket, and the sign behind it that says how often a group may come. -/
  | closeParen (count : Option Char)
  | comma
  | bar
  | percent
  | parameter (name : String)
  | hash (name : String)
  | word (form : NameForm) (text : String) (count : Option Char)
  | literal (cs : List Char)
  /-- A comment or an instruction. -/
  | remark
  deriving DecidableEq, Repr

/-- What is behind a comment whose opening has been passed. Two hyphens only stand at its end. -/
def afterComment? (cs : List Char) : Option (List Char) :=
  match splitAt? ['-', '-'] cs with
  | some (_, '>' :: rest) => some rest
  | _ => none

/-- Is it a name that instructions may not have? -/
def isReserved (name : String) : Bool := name.toList.map Char.toLower == ['x', 'm', 'l']

/-- What is behind an instruction whose opening has been passed. -/
def afterInstruction? (cs : List Char) : Option (List Char) := do
  let (name, rest) ← takeWord? cs
  if isReserved name then none
  let (before, rest') ← splitAt? ['?', '>'] rest
  match before with
  | [] => some rest'
  | c :: _ => if isSpace c then some rest' else none

/-- Does a text start with white space or one of some characters? -/
def startsWithAny (marks : String) : List Char → Bool
  | c :: _ => isSpace c || marks.toList.contains c
  | [] => false

def formOf (cs : List Char) : NameForm :=
  if cs.head?.any isLetter then
    match cs.dropWhile isNameChar with
    | [] => .plain
    | _ :: rest => if rest ≠ [] ∧ rest.all isNameChar then .qualified else .other
  else .other

/-- The sign that says how often something may come. -/
def takeCount : List Char → Option Char × List Char
  | '?' :: cs => (some '?', cs)
  | '*' :: cs => (some '*', cs)
  | '+' :: cs => (some '+', cs)
  | cs => (none, cs)

def isWordChar (c : Char) : Bool := isNameChar c || c == ':'

def takeWordMark? (cs : List Char) : Option (Mark × List Char) :=
  let word := cs.takeWhile isWordChar
  let form := formOf word
  let (count, rest) := takeCount (cs.dropWhile isWordChar)
  if word = [] then none
  else if count.isSome then
    if form = .other then none else some (.word form (String.ofList word) count, rest)
  else if startsWithAny ">),|[%" rest then some (.word form (String.ofList word) none, rest)
  else none

def isKeywordChar (c : Char) : Bool := c.isAlpha || c == '_'

/-- A declaration's start, behind its exclamation mark. -/
def takeOpening? (cs : List Char) : Option (Mark × List Char) :=
  let keyword := cs.takeWhile isKeywordChar
  let rest := cs.dropWhile isKeywordChar
  let parted := match rest with
    | '%' :: more => !startsWithAny "%" more && !more.isEmpty
    | _ => startsWithAny "" rest
  if !keyword.isEmpty && parted then some (.opening (String.ofList keyword), rest) else none

def takePercent? (cs : List Char) : Option (Mark × List Char) :=
  match takeWord? cs with
  | some (name, ';' :: rest) => some (.parameter name, rest)
  | some _ => none
  | none => if startsWithAny "%" cs then some (.percent, cs) else none

/-- The mark at the start of a text. -/
def takeMark? (cs : List Char) : Option (Mark × List Char) :=
  match cs with
  | '<' :: '!' :: '-' :: '-' :: rest => (afterComment? rest).map (.remark, ·)
  | '<' :: '?' :: rest => (afterInstruction? rest).map (.remark, ·)
  | '<' :: '!' :: rest => takeOpening? rest
  | '>' :: rest => some (.close, rest)
  | '[' :: rest => some (.openBracket, rest)
  | ']' :: rest => some (.closeBracket, rest)
  | '(' :: rest => some (.openParen, rest)
  | ')' :: rest =>
    let (count, rest) := takeCount rest
    if count.isSome || startsWithAny ">,|)" rest then some (.closeParen count, rest) else none
  | ',' :: rest => some (.comma, rest)
  | '|' :: rest => some (.bar, rest)
  | '%' :: rest => takePercent? rest
  | '#' :: rest =>
    match takeWord? rest with
    | some (name, rest) => if startsWithAny ")>%|" rest then some (.hash name, rest) else none
    | none => none
  | c :: _ =>
    if c = '"' ∨ c = '\'' then
      match takeQuoted? cs with
      | some (value, rest) => if startsWithAny ">%[" rest then some (.literal value, rest) else none
      | none => none
    else takeWordMark? cs
  | [] => none

/-- The marks before the root, and the text from the root on. -/
def marks? (cs : List Char) : Option (List Mark × List Char) :=
  match cs with
  | [] => none
  | c :: rest =>
    if isSpace c then marks? rest
    else if c = '<' ∧ rest.head?.any isLetter then some ([], cs)
    else
      match takeMark? cs with
      | some (mark, more) =>
        if more.length ≤ rest.length then
          (marks? more).map fun (marks, body) => (mark :: marks, body)
        else none
      | none => none
termination_by cs.length

end Acceptance.Xml

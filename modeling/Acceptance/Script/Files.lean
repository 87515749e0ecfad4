import Acceptance.Script.Basic
import Acceptance.Text.Lines
/-!
Work on files that takes several operations: directories with their parents, texts, and groups of
files that are written together.
-/
namespace Acceptance.Script

def stat (p : Path) : Script (Option EntryKind) := do ofReply (← ask (.stat p))

def isThere (p : Path) : Script Bool := do return (← stat p).isSome

def isDir (p : Path) : Script Bool := do return (← stat p) = some .dir

def isFile (p : Path) : Script Bool := do return (← stat p) = some .file

/-- A directory that is there already is as good as a new one. -/
def acceptDir (p : Path) (r : Except FileError Unit) : Script Unit :=
  match r with
  | .error (.os e) => do if ← isDir p then return () else stop (.os e)
  | r => ofReply r

/-- Makes the directory with the given parts, last first, and before it the ones above it if they
are missing. -/
def makeDirsUp (slashes : Nat) : List Phrase → Script Unit
  | [] => do
    let p : Path := ⟨slashes, []⟩
    acceptDir p (← ask (.makeDir p))
  | part :: above => do
    let p : Path := ⟨slashes, (part :: above).reverse⟩
    let reply ← ask (.makeDir p)
    match reply with
    | .error (.os ⟨.notFound, _, _⟩) => do
      makeDirsUp slashes above
      acceptDir p (← ask (.makeDir p))
    | _ => acceptDir p reply

def makeDirs (p : Path) : Script Unit := makeDirsUp p.slashes p.parts.reverse

def writeText (p : Path) (text : String) : Script Unit := do
  ofReply (← ask (.write p (Text.encode text)))

def remove (p : Path) : Script Unit := do ofReply (← ask (.remove p))

/-- A file that is not there needs no removal. -/
def removeIfThere (p : Path) : Script Unit := do
  match ← ask (.remove p) with
  | .error (.os ⟨.notFound, _, _⟩) => return ()
  | r => ofReply r

/-- The text of a file, with line feeds as its only line breaks. -/
def textOf (bytes : ByteArray) : Outcome String := do
  let text ← (Text.decode bytes).mapError Fault.undecodable
  return String.ofList (Text.unifyBreaks text.toList)

def readText (p : Path) : Script String := do
  ofOutcome (textOf (← ofReply (← ask (.read p))))

def readJson (p : Path) : Script Value := do
  ofOutcome ((Json.read (← readText p)).mapError .ofJson)

/-- Paths in order. -/
def sortPaths (ps : List Path) : List Path := ps.mergeSort Path.le

/-- Does a name begin and end with the given texts, one after the other? -/
def fitsName (start ending name : String) : Bool :=
  start.toList.isPrefixOf name.toList && ending.toList.isSuffixOf name.toList &&
    start.length + ending.length ≤ name.length

/-- What lies directly in a directory and has a name that fits. -/
def childrenNamed (start ending : String) (dir : Path) : Script (List Path) := do
  let found ← ask (.listBelow dir)
  return sortPaths (found.filterMap fun
    | ([name], _) => if fitsName start ending name then some (dir.child name) else none
    | _ => none)

/-- A file of a group, and the hidden file beside it that it is first written to. -/
structure Staged where
  target : Path
  draft : Path

def draftOf (target : Path) : Path := target.withName s!".{target.name}.tmp"

/-- Drafts one file. The root of the tree has no name, so nothing can be drafted beside it. -/
def stage (target : Path) (text : String) : Script Staged := do
  makeDirs target.parent
  if target.parts = [] then stop (.nameless target.text)
  writeText (draftOf target) text
  return ⟨target, draftOf target⟩

/-- Drafts all files of a group. Where one cannot be written the others are taken back. -/
def stageAll (staged : List Staged) : List (Path × String) → Script (List Staged)
  | [] => return staged
  | (target, text) :: rest => do
    match ← (stage target text).attempt with
    | .ok s => stageAll (staged ++ [s]) rest
    | .error (.os e) => do
      staged.forM fun s => removeIfThere s.draft
      stop (.os e)
    | .error f => stop f

def swapIn (s : Staged) : Script Unit := do ofReply (← ask (.move s.draft s.target))

/-- Writes a group of files and then removes some others. No file is swapped in before all of them
are drafted. -/
def writeGroup (files : List (Path × String)) (stale : List Path) : Script Unit := do
  let staged ← stageAll [] (files.mergeSort fun a b => a.1.le b.1)
  staged.forM swapIn
  (stale.filter fun p => !files.any (·.1 = p)).forM removeIfThere

end Acceptance.Script

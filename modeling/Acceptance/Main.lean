import Acceptance.Command.Perform
import Acceptance.Command.Transcript
/-!
The program `gwtc`: scripts run on the machine itself, in the current directory. Test processes are
not started from here, so a run of tests is told as one without an interpreter.
-/
namespace Acceptance.Machine

/-- The cause that the machine gives. Which kind of file stands in the way is asked for at
`isDir`. -/
def causeOf (isDir : Bool) : IO.Error → OsCause
  | .noFileOrDirectory .. => .notFound
  | .alreadyExists .. => .exists
  | .inappropriateType .. => if isDir then .isADirectory else .notADirectory
  | .invalidArgument .. => .nameTooLong
  | _ => if isDir then .isADirectory else .notFound

def guarded {α : Type} (p : Path) (target : Option Path) (act : IO α) :
    IO (Except FileError α) := do
  if let some flaw := p.flaw? <|> target.bind (·.flaw?) then return .error (.path flaw)
  try
    return .ok (← act)
  catch e =>
    let blocking := (← IO.currentDir) / (target.getD p).text
    return .error (.os ⟨causeOf (← blocking.isDir) e, p.text, target.map (·.text)⟩)

def statOf (p : Path) : IO (Option EntryKind) := do
  let file := (← IO.currentDir) / p.text
  if ← file.isDir then return some .dir
  else if ← file.pathExists then return some .file
  else return none

partial def listFrom (p : Path) (names : Location) : IO (List (Location × EntryKind)) := do
  let dir := (← IO.currentDir) / (p.below names).text
  let mut found := []
  for e in ← dir.readDir do
    let here := names ++ [e.fileName]
    if ← e.path.isDir then found := found ++ (here, .dir) :: (← listFrom p here)
    else found := found ++ [(here, .file)]
  return found

def listOf (p : Path) : IO (List (Location × EntryKind)) := do
  if (← statOf p) = some .dir then listFrom p [] else return []

def perform : (op : Op) → IO op.Reply
  | .stat p => if p.flaw?.isSome then return .ok none else guarded p none (statOf p)
  | .read p => guarded p none (IO.FS.readBinFile p.text)
  | .makeDir p => guarded p none (IO.FS.createDir p.text)
  | .write p bytes => guarded p none (IO.FS.writeBinFile p.text bytes)
  | .move p q => guarded p (some q) (IO.FS.rename p.text q.text)
  | .remove p => guarded p none (IO.FS.removeFile p.text)
  | .listBelow p => listOf p
  | .launch _ => return .missing
  | .say line => IO.print (Command.transcript [line])

def run {α : Type} : Script α → IO (Outcome α)
  | .done a => return .ok a
  | .stop f => return .error f
  | .call op next => do run (next (← perform op))

end Acceptance.Machine

open Acceptance in
def main (args : List String) : IO UInt32 := do
  let root := Path.ofText (← IO.currentDir).toString
  match ← Machine.run (Command.performWords root args) with
  | .ok code => return code.toUInt32
  | .error f =>
    IO.eprintln ((f.message?.map (·.visible)).getD "The data cannot be used.")
    return 1

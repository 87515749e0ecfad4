import Acceptance.Tree.Path
/-!
Errors of file operations, with the numbers and the wording of those that the machine gives.
-/
namespace Acceptance

inductive OsCause
  | notFound
  | busy
  | exists
  | notADirectory
  | isADirectory
  | nameTooLong
  deriving DecidableEq, Repr

def OsCause.number : OsCause → Nat
  | .notFound => 2
  | .busy => 16
  | .exists => 17
  | .notADirectory => 20
  | .isADirectory => 21
  | .nameTooLong => 36

def OsCause.text : OsCause → String
  | .notFound => "No such file or directory"
  | .busy => "Device or resource busy"
  | .exists => "File exists"
  | .notADirectory => "Not a directory"
  | .isADirectory => "Is a directory"
  | .nameTooLong => "File name too long"

/-- A failed operation on a path, or on a source and a target. -/
structure OsError where
  cause : OsCause
  path : String
  target : Option String
  deriving DecidableEq, Repr

def OsError.message (e : OsError) : String :=
  let base := s!"[Errno {e.cause.number}] {e.cause.text}: {Text.quoted e.path}"
  match e.target with
  | none => base
  | some t => s!"{base} -> {Text.quoted t}"

/-- Why a file operation fails: the machine refuses it, or nothing can have such a path. -/
inductive FileError
  | os (e : OsError)
  | path (flaw : PathFlaw)
  deriving DecidableEq, Repr

end Acceptance

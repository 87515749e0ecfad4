import Acceptance.Fault
import Acceptance.Tree.Basic
/-!
Scripts: work on files, processes and the terminal, one operation at a time. A script is data, so it
can be run on a `World` that is itself data, or on a real machine, or step by step beside another
script.
-/
namespace Acceptance

/-- A run of the test program: which tests, where, and for how long. -/
structure Launch where
  targets : List String
  outputDir : String
  directory : String
  timeout : Value

namespace Launch

/-- The command, given the interpreter and the file that the report is written to. -/
def command (l : Launch) (interpreter report : String) : List String :=
  [interpreter, "-m", "pytest"] ++ l.targets ++
    ["-q", "--tb=short", "-p", "no:cacheprovider", s!"--rootdir={l.outputDir}",
      s!"--junitxml={report}", "-o", "junit_family=xunit2"]

/-- Where modules are looked for: first in the directory, then where they were looked for before. -/
def searchPath (l : Launch) (outer : String) : String :=
  String.intercalate ":" ([l.directory, outer].filter (· ≠ ""))

end Launch

/-- How a run of the test program ends. The report may be missing. -/
inductive Ending
  | timedOut
  | missing
  | exited (report : Option String) (code : Int) (output errors : String)

inductive Op
  | stat (p : Path)
  | read (p : Path)
  | makeDir (p : Path)
  | write (p : Path) (bytes : ByteArray)
  | move (p q : Path)
  | remove (p : Path)
  | listBelow (p : Path)
  | launch (l : Launch)
  | say (line : String)

abbrev Op.Reply : Op → Type
  | .stat _ => Except FileError (Option EntryKind)
  | .read _ => Except FileError ByteArray
  | .makeDir _ => Except FileError Unit
  | .write .. => Except FileError Unit
  | .move .. => Except FileError Unit
  | .remove _ => Except FileError Unit
  | .listBelow _ => List (Location × EntryKind)
  | .launch _ => Ending
  | .say _ => Unit

inductive Script (α : Type)
  | done (a : α)
  | stop (f : Fault)
  | call (op : Op) (next : op.Reply → Script α)

namespace Script

variable {α β γ : Type}

def bind : Script α → (α → Script β) → Script β
  | done a, k => k a
  | stop f, _ => stop f
  | call op next, k => call op fun r => (next r).bind k

instance : Monad Script where
  pure := done
  bind := bind

@[simp] theorem pure_eq (a : α) : (pure a : Script α) = done a := rfl

@[simp] theorem done_bind (a : α) (k : α → Script β) : (done a >>= k) = k a := rfl

@[simp] theorem stop_bind (f : Fault) (k : α → Script β) : (stop f >>= k) = stop f := rfl

@[simp] theorem call_bind (op : Op) (next : op.Reply → Script α) (k : α → Script β) :
    (call op next >>= k) = call op fun r => next r >>= k := rfl

theorem bind_done (s : Script α) : (s >>= done) = s := by
  induction s with
  | done a => rfl
  | stop f => rfl
  | call op next ih => exact congrArg (call op) (funext ih)

theorem bind_bind (s : Script α) (k : α → Script β) (l : β → Script γ) :
    (s >>= k >>= l) = s >>= fun a => k a >>= l := by
  induction s with
  | done a => rfl
  | stop f => rfl
  | call op next ih => exact congrArg (call op) (funext ih)

instance : LawfulMonad Script := LawfulMonad.mk' Script bind_done (fun _ _ => rfl) bind_bind

/-- The script with a fault as its result, if it meets one. -/
def attempt : Script α → Script (Except Fault α)
  | done a => done (.ok a)
  | stop f => done (.error f)
  | call op next => call op fun r => (next r).attempt

def ofOutcome : Outcome α → Script α
  | .ok a => done a
  | .error f => stop f

def ofFit (r : Except Misfit α) : Script α := ofOutcome (Value.orFault r)

/-- An operation, by its reply. -/
def ask (op : Op) : Script op.Reply := call op done

/-- An operation that is expected to succeed. -/
def ofReply : Except FileError α → Script α
  | .ok a => done a
  | .error e => stop (.ofFile e)

/-- Tells a phrase, if it can be written out. -/
def say (line : Phrase) : Script Unit :=
  match line.text? with
  | some s => ask (.say s)
  | none => stop .tornText

end Script

/-- What scripts work on. -/
structure World where
  tree : Tree := .empty
  ending : Ending := .exited none 0 "" ""
  launches : List Launch := []
  printed : List String := []

/-- The world with the tree that an operation on a path leaves, if it succeeds. -/
def World.update (w : World) (p : Path) (target : Option Path) (r : Except OsCause Tree) :
    Except FileError Unit × World :=
  match p.flaw? <|> target.bind (·.flaw?), r with
  | some flaw, _ => (.error (.path flaw), w)
  | none, .ok tree => (.ok (), { w with tree })
  | none, .error cause => (.error (.os ⟨cause, p.text, target.map (·.text)⟩), w)

def World.look {α : Type} (w : World) (p : Path) (r : Except OsCause α) :
    Except FileError α × World :=
  match p.flaw? with
  | some flaw => (.error (.path flaw), w)
  | none => (r.mapError fun cause => .os ⟨cause, p.text, none⟩, w)

/-- Nothing is found under a path that nothing can have. -/
def World.stat (w : World) (p : Path) : Except FileError (Option EntryKind) × World :=
  if p.flaw?.isSome then (.ok none, w) else w.look p (w.tree.stat p)

def Op.perform : (op : Op) → World → op.Reply × World
  | .stat p, w => w.stat p
  | .read p, w => w.look p (w.tree.read p)
  | .makeDir p, w => w.update p none (w.tree.makeDir p)
  | .write p bytes, w => w.update p none (w.tree.write p bytes)
  | .move p q, w => w.update p (some q) (w.tree.move p q)
  | .remove p, w => w.update p none (w.tree.remove p)
  | .listBelow p, w => (w.tree.listBelow p, w)
  | .launch l, w => (w.ending, { w with launches := w.launches ++ [l] })
  | .say line, w => ((), { w with printed := w.printed ++ [line] })

namespace Script

variable {α β : Type}

/-- A fault ends a run, and what was done before it stays done. -/
def run : Script α → World → Outcome α × World
  | done a, w => (.ok a, w)
  | stop f, w => (.error f, w)
  | call op next, w => (next (op.perform w).1).run (op.perform w).2

@[simp] theorem run_done (a : α) (w : World) : (done a).run w = (.ok a, w) := rfl

@[simp] theorem run_stop (f : Fault) (w : World) : (stop f : Script α).run w = (.error f, w) := rfl

@[simp] theorem run_call (op : Op) (next : op.Reply → Script α) (w : World) :
    (call op next).run w = (next (op.perform w).1).run (op.perform w).2 := rfl

theorem run_bind (s : Script α) (k : α → Script β) (w : World) :
    (s >>= k).run w =
      match s.run w with
      | (.ok a, w') => (k a).run w'
      | (.error f, w') => (.error f, w') := by
  induction s generalizing w with
  | done a => rfl
  | stop f => rfl
  | call op next ih => simpa using ih _ _

theorem run_attempt (s : Script α) (w : World) :
    s.attempt.run w = (.ok (s.run w).1, (s.run w).2) := by
  induction s generalizing w with
  | done a => rfl
  | stop f => rfl
  | call op next ih => simpa [attempt] using ih _ _

end Script
end Acceptance

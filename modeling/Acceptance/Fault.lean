import Acceptance.Json.Reader
import Acceptance.Problem
import Acceptance.Text.Utf8
import Acceptance.Tree.OsError
/-!
Faults: everything that can stop an operation. Problems are reported file by file where a report is
made; all other faults end the whole operation.
-/
namespace Acceptance

inductive Fault
  | problem (p : Problem)
  | misfit (m : Misfit)
  | undecodable (e : Text.Utf8Error)
  | json (e : Json.SyntaxFlaw)
  | xml
  | os (e : OsError)
  | path (flaw : PathFlaw)
  | nameless (file : String)
  | tornText
  | noConfig (file : String)
  | notInitialized
  | repeatedHole

/-- Results that a fault may take the place of. -/
abbrev Outcome (α : Type) := Except Fault α

namespace Fault

def ofJson : Json.ReadError → Fault
  | .flaw e => .json e
  | .misfit m => .misfit m

def ofFile : FileError → Fault
  | .os e => .os e
  | .path flaw => .path flaw

/-- The wording; where it is not fixed there is none. -/
def message? : Fault → Option Phrase
  | .problem p => some p.message
  | .misfit m => m.message?
  | .undecodable e => some e.message
  | .json e => some e.message
  | .xml => none
  | .os e => some e.message
  | .path .nul => some "embedded null byte"
  | .path .torn => none
  | .nameless file => some s!"PosixPath({Text.quoted file}) has an empty name"
  | .tornText => none
  | .noConfig file => some s!"No config found at {file}"
  | .notInitialized => some "Project is not initialized. Run `gwtc init` first."
  | .repeatedHole => none

end Fault

/-- Data that does not fit is a fault. -/
def Value.orFault {α : Type} (r : Except Misfit α) : Except Fault α := r.mapError .misfit

end Acceptance

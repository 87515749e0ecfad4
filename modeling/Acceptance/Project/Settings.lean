import Acceptance.Json.Writer
import Acceptance.Script.Files
import Acceptance.Value.Numbers
/-!
Settings of a project and the file that keeps them.
-/
namespace Acceptance

/-- Settings are kept as they are found; what cannot be used comes to light when it is used. -/
structure Settings where
  version : Value := .text "0.1.0"
  framework : Value := .text "pytest"
  specsDir : Value := .text "specs"
  registry : Value := .text "specs/operations.yaml"
  planDir : Value := .text ".gwt/ir"
  outputDir : Value := .text ".gwt/generated"
  timeout : Value := .int 300
  workers : Value := .int 1

namespace Settings

def record (s : Settings) : Value :=
  .record [("version", s.version), ("framework", s.framework), ("specs_dir", s.specsDir),
    ("registry", s.registry), ("ir_dir", s.planDir), ("output_dir", s.outputDir),
    ("timeout", s.timeout), ("workers", s.workers)]

def text (s : Settings) : String := Json.orderedLayout.write s.record ++ "\n"

/-- The settings that data gives. Those that it lacks have their usual values. -/
def ofValue (v : Value) : Except Misfit Settings := do
  let usual : Settings := {}
  let framework ← v.memberD "framework" usual.framework
  let timeout ← (← v.memberD "timeout" usual.timeout).toInteger
  let workers ← (← v.memberD "workers" usual.workers).toInteger
  let settings : Settings := {
    version := ← v.memberD "version" usual.version
    framework := framework
    specsDir := ← v.memberD "specs_dir" usual.specsDir
    registry := ← v.memberD "registry" usual.registry
    planDir := ← v.memberD "ir_dir" usual.planDir
    outputDir := ← v.memberD "output_dir" usual.outputDir
    timeout := .int timeout
    workers := .int (max 1 workers) }
  match framework with
  | .text "pytest" => return settings
  | _ => .error (.unsupportedFramework framework.phrase)

/-- The directory for everything that is not written by hand. -/
def home (root : Path) : Path := root.child ".gwt"

def file (root : Path) : Path := (home root).child "config.json"

/-- The path that a setting gives, as seen from the root of the project. -/
def place (root : Path) (setting : Value) : Except Misfit Path :=
  match setting with
  | .text s => .ok (root.join (.ofText s))
  | .torn ps => .ok (root.join (.ofPhrase ⟨ps⟩))
  | _ => .error .wrongKind

open Script

def save (s : Settings) (root : Path) : Script Path := do
  makeDirs (home root)
  writeText (file root) s.text
  return file root

def load (root : Path) : Script Settings := do
  if ← isThere (file root) then ofFit (ofValue (← readJson (file root)))
  else stop (.noConfig (file root).text)

def areThere (root : Path) : Script Bool := isThere (file root)

def loadOrRefuse (root : Path) : Script Settings := do
  if ← areThere root then load root else stop .notInitialized

end Settings
end Acceptance

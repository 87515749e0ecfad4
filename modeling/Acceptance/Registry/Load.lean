import Acceptance.Registry.Reader
import Acceptance.Text.Lines
import Acceptance.Yaml.Reader
/-!
Reading a registry from the text of its file.
-/
namespace Acceptance.Registry

/-- The registry of a YAML text, whose line breaks have been unified. -/
def ofYaml (text source : String) : Outcome Registry :=
  match Yaml.read text with
  | .ok v => ofValue v source
  | .error .malformed => .error (.problem (.registry ⟨source, none, .badYaml⟩))
  | .error (.misfit m) => .error (.misfit m)

/-- The registry in the bytes of a file. -/
def ofBytes (bytes : ByteArray) (source : String) : Outcome Registry := do
  let text ← (Text.decode bytes).mapError .undecodable
  ofYaml (String.ofList (Text.unifyBreaks text.toList)) source

end Acceptance.Registry

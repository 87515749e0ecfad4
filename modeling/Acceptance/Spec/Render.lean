import Acceptance.Spec.Basic
import Acceptance.Text.Blank
/-!
Writing a spec as text.
-/
namespace Acceptance

def headerBar : String := ";==============================================================="

/-- A comment between bars. -/
def banner (text : String) : List String := [headerBar, s!"; {text}", headerBar]

namespace Spec

variable {ν : Type}

def Step.render (s : Step ν) : String := s!"{s.kind.keyword} {s.text}."

def Scenario.render (s : Scenario String ν) : List String :=
  (if s.title = "" then [] else banner s.title) ++ s.steps.map Step.render ++ [""]

def Document.renderLines (s : Document String ν) : List String :=
  (if s.description = "" then [] else banner s.description ++ [""]) ++
    s.scenarios.flatMap Scenario.render

end Spec

/-- Lines as a text that ends in one line break. -/
def joinLines (ls : List String) : String :=
  String.ofList (Text.trimEnd (String.intercalate "\n" ls).toList) ++ "\n"

def Spec.Document.render {ν : Type} (s : Spec.Document String ν) : String :=
  joinLines s.renderLines

end Acceptance

import Acceptance.Literal
import Acceptance.Spec.Kind
/-!
Specs: what a Given/When/Then text says.

A spec that is read from a text has texts and line numbers in its places. One that is handed over as
data may have other data there, so specs are made over the types `τ` of names and titles and `ν` of
line numbers.
-/
namespace Acceptance

namespace Spec

structure Step (ν : Type) where
  kind : Kind
  text : String
  parameters : List Parameter
  line : ν
  deriving DecidableEq, Repr

structure Scenario (τ ν : Type) where
  title : τ
  steps : List (Step ν)
  line : ν
  deriving DecidableEq, Repr

structure Document (τ ν : Type) where
  path : τ
  description : τ
  scenarios : List (Scenario τ ν)
  deriving DecidableEq, Repr

end Spec

/-- A spec as it is read from a text. -/
abbrev Spec := Spec.Document String Nat

namespace Spec

variable {τ σ ν μ : Type}

def Step.map (g : ν → μ) (s : Step ν) : Step μ := ⟨s.kind, s.text, s.parameters, g s.line⟩

def Scenario.map (f : τ → σ) (g : ν → μ) (s : Scenario τ ν) : Scenario σ μ :=
  ⟨f s.title, s.steps.map (·.map g), g s.line⟩

def Document.map (f : τ → σ) (g : ν → μ) (s : Document τ ν) : Document σ μ :=
  ⟨f s.path, f s.description, s.scenarios.map (·.map f g)⟩

def Scenario.count (s : Scenario τ ν) (k : Kind) : Nat := s.steps.countP (·.kind = k)

/-- Line numbers tell where a spec was read and are no part of what it says. -/
def Document.withoutLines (s : Document τ ν) : Document τ Unit := s.map id fun _ => ()

def Document.same [DecidableEq τ] (s : Document τ ν) (t : Document τ μ) : Bool :=
  s.withoutLines = t.withoutLines

end Spec
end Acceptance

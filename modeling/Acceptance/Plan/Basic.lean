import Acceptance.Literal
import Acceptance.Spec.Kind
import Acceptance.Text.Phrase
/-!
Plans: the scenarios of a spec with each statement bound to an operation, or the reason why not.

A plan that the compiler makes has texts, phrases, parameters and line numbers in its places. One
that comes back from a file may have other data there, so plans are made over the types `τ` of
texts, `η` of what is told about templates, `π` of parameters and `ν` of line numbers.
-/
namespace Acceptance

/-- How the result of an outcome's operation is checked. -/
inductive Comparison
  | eq
  | ne
  | contains
  | truthy
  | falsy
  | gt
  | ge
  | lt
  | le
  deriving DecidableEq, Repr

namespace Comparison

def all : List Comparison := [.eq, .ne, .contains, .truthy, .falsy, .gt, .ge, .lt, .le]

def name : Comparison → String
  | .eq => "eq"
  | .ne => "ne"
  | .contains => "contains"
  | .truthy => "truthy"
  | .falsy => "falsy"
  | .gt => "gt"
  | .ge => "ge"
  | .lt => "lt"
  | .le => "le"

def ofName? (s : String) : Option Comparison := all.find? (·.name == s)

/-- Is there an expected value to compare with? -/
def takesExpected (c : Comparison) : Bool := c != .truthy && c != .falsy

theorem ofName?_name (c : Comparison) : ofName? c.name = some c := by
  cases c <;> rfl

end Comparison

/-- Why a statement is not bound. -/
inductive Reason
  | pending
  | noMatch
  | typeMismatch
  deriving DecidableEq, Repr

namespace Reason

def all : List Reason := [.pending, .noMatch, .typeMismatch]

def name : Reason → String
  | .pending => "pending"
  | .noMatch => "no-match"
  | .typeMismatch => "type-mismatch"

def ofName? (s : String) : Option Reason := all.find? (·.name == s)

theorem ofName?_name (r : Reason) : ofName? r.name = some r := by
  cases r <;> rfl

end Reason

/-- A statement bound to one operation. -/
structure Binding (τ π : Type) where
  operation : τ
  args : List π
  expected : Option π
  comparison : Comparison
  passResult : Bool
  deriving DecidableEq, Repr

inductive Resolution (τ η π : Type)
  | resolved (b : Binding τ π)
  | ambiguous (candidates : List τ) (patterns : List η)
  | unresolved (reason : Reason) (detail : η) (candidates : List η)
  deriving DecidableEq, Repr

namespace Plan

structure Step (τ η π ν : Type) where
  kind : Kind
  statement : τ
  parameters : List π
  resolution : Resolution τ η π
  line : ν
  deriving DecidableEq, Repr

structure Scenario (τ η π ν : Type) where
  id : τ
  title : τ
  steps : List (Step τ η π ν)
  line : ν
  deriving DecidableEq, Repr

structure Document (τ η π ν : Type) where
  source : τ
  description : τ
  scenarios : List (Scenario τ η π ν)
  deriving DecidableEq, Repr

end Plan

/-- What the compiler finds for a statement. -/
abbrev Finding := Resolution String Phrase Parameter

/-- Plans as the compiler makes them, over the type of line numbers. -/
abbrev Plan.Draft := Plan.Document String Phrase Parameter

abbrev Plan.DraftScenario := Plan.Scenario String Phrase Parameter

abbrev Plan.DraftStep := Plan.Step String Phrase Parameter

/-- The plan of a spec. -/
abbrev Plan := Plan.Draft Nat

variable {τ η π ν σ θ ρ μ : Type}

def Resolution.isResolved : Resolution τ η π → Bool
  | .resolved _ => true
  | _ => false

def Plan.Step.isResolved (s : Step τ η π ν) : Bool := s.resolution.isResolved

def Plan.Scenario.isResolved (s : Scenario τ η π ν) : Bool := s.steps.all (·.isResolved)

def Plan.Document.isResolved (d : Document τ η π ν) : Bool := d.scenarios.all (·.isResolved)

def Plan.Scenario.ofKind (s : Scenario τ η π ν) (k : Kind) : List (Step τ η π ν) :=
  s.steps.filter (·.kind = k)

def Binding.map (f : τ → σ) (g : π → ρ) (b : Binding τ π) : Binding σ ρ :=
  ⟨f b.operation, b.args.map g, b.expected.map g, b.comparison, b.passResult⟩

def Resolution.map (f : τ → σ) (e : η → θ) (g : π → ρ) : Resolution τ η π → Resolution σ θ ρ
  | .resolved b => .resolved (b.map f g)
  | .ambiguous candidates patterns => .ambiguous (candidates.map f) (patterns.map e)
  | .unresolved reason detail candidates => .unresolved reason (e detail) (candidates.map e)

namespace Plan

def Step.map (f : τ → σ) (e : η → θ) (g : π → ρ) (h : ν → μ) (s : Step τ η π ν) : Step σ θ ρ μ :=
  ⟨s.kind, f s.statement, s.parameters.map g, s.resolution.map f e g, h s.line⟩

def Scenario.map (f : τ → σ) (e : η → θ) (g : π → ρ) (h : ν → μ) (s : Scenario τ η π ν) :
    Scenario σ θ ρ μ :=
  ⟨f s.id, f s.title, s.steps.map (·.map f e g h), h s.line⟩

def Document.map (f : τ → σ) (e : η → θ) (g : π → ρ) (h : ν → μ) (d : Document τ η π ν) :
    Document σ θ ρ μ :=
  ⟨f d.source, f d.description, d.scenarios.map (·.map f e g h)⟩

end Plan

@[simp] theorem Resolution.isResolved_map (f : τ → σ) (e : η → θ) (g : π → ρ)
    (r : Resolution τ η π) : (r.map f e g).isResolved = r.isResolved := by
  cases r <;> rfl

end Acceptance

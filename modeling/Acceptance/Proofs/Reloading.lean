import Acceptance.Emission.Module
import Acceptance.Proofs.PlanText
/-!
A plan that is written and read again. It comes back with the keys of the mappings in it sorted, and
where what is shown of it was sorted before, the tests made from it are the same.
-/
namespace Acceptance

open Value

namespace Plan

def Step.sorted (s : StoredStep) : StoredStep := s.map Value.sorted Value.sorted (·.map Value.sorted)
  Value.sorted

def Scenario.sorted (s : StoredScenario) : StoredScenario :=
  s.map Value.sorted Value.sorted (·.map Value.sorted) Value.sorted

/-- The plan with the keys of all mappings in its data sorted. -/
def Document.sorted (d : Stored) : Stored := d.rearranged Value.sorted

end Plan

variable {s : StoredScenario}

namespace Emission

open Plan

/-- A span with its data sorted. -/
def Span.sorted (s : Span) : Span := { s with statement := s.statement.sorted, specLine := s.specLine.sorted }

def TestCode.sorted (t : TestCode) : TestCode :=
  { t with title := t.title.sorted, spans := t.spans.map Span.sorted }

def Placed.sorted (p : Placed) : Placed := ⟨p.test.sorted, p.offset, p.line.sorted⟩

variable {scenarios : List StoredScenario}

/-- The files of a module with their texts. -/
def TestModule.files (m : TestModule) : List (String × String) :=
  [(m.file, m.code), (m.manifestName, m.manifestText)]

/-- The module of placed tests. -/
def moduleOf (source slug : String) (head : List String) (planSource : Value) (ps : List Placed) :
    TestModule :=
  ⟨source, moduleFile slug, manifestFile slug,
    String.ofList (Text.trimEnd (String.intercalate "\n" (head ++ ps.flatMap (·.lines))).toList) ++ "\n",
    ps.map (·.test), manifestOf (moduleFile slug) planSource ps⟩

end Emission

namespace Plan

/-- The stored plans there are: of a spec, resolved by a registry, or read from data. -/
inductive Arises : Stored → Prop
  | planned {s : Spec} {p : Plan} (h : ofSpec s = .ok p) : Arises p.stored
  | given {s : Spec.Given} {p : Draft Value} (h : s.plan = .ok p) : Arises p.stored
  | resolved {ν : Type} [ToValue ν] {r : Registry} {p q : Draft ν} (hp : p.InOrder)
    (h : p.resolve r = .ok q) : Arises q.stored
  | read {v : Value} {d : Stored} (h : ofValue v = .ok d) : Arises d

theorem inOrder_stored {ν : Type} [ToValue ν] {p : Draft ν} (h : p.InOrder) : p.stored.InOrder := by
  refine List.forall_mem_map.2 fun s hs => ?_
  have hkinds : (s.map Value.text Value.ofPhrase StoredParameter.ofParameter
      (toValue : ν → Value)).steps.map (·.kind) = s.steps.map (·.kind) := List.map_map
  exact hkinds ▸ h s hs

theorem Arises.inOrder {d : Stored} (h : Arises d) : d.InOrder := by
  cases h with
  | planned h => exact inOrder_stored (inOrder_of_ofSpec h)
  | given h => exact inOrder_stored (inOrder_of_plan h)
  | resolved hp h => exact inOrder_stored (inOrder_of_resolve hp h)
  | read h => exact inOrder_of_ofValue h

end Plan
end Acceptance

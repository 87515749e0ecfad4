import Acceptance.Project.Compile
import Acceptance.Proofs.BoundSteps
import Acceptance.Proofs.ScriptRuns
/-!
Just the resolved scenarios are emitted. A scenario has a problem for each step that is not resolved
and for no other; those without problems always have tests, and those with some never have.
-/
namespace Acceptance

variable {r : Registry} {v : Value}

/-- Where a problem of a step is: its source, scenario, statement and line. -/
def Problem.place? : Problem → Option (Value × Value × Value × Value)
  | .unresolved e => some (e.source, e.scenarioId, e.statement, e.line)
  | .ambiguous e => some (e.source, e.scenarioId, e.statement, e.line)
  | _ => none

namespace Plan

variable {ν : Type}

theorem Step.Complete.map {τ η π σ θ ρ μ : Type} {s : Step τ η π ν} (h : s.Complete) (f : τ → σ)
    (e : η → θ) (g : π → ρ) (k : ν → μ) : (s.map f e g k).Complete := by
  intro b hb hkind htakes
  change s.resolution.map f e g = .resolved b at hb
  cases hs : s.resolution with
  | resolved b' =>
    rw [hs] at hb
    cases hb
    exact (Option.isSome_map ..).trans (h b' hs hkind htakes)
  | _ =>
    rw [hs] at hb
    cases hb

theorem complete_of_resolve {source : String} (hr : Registry.ofValue v source = .ok r)
    {p d : Draft ν} (h : p.resolve r = .ok d) : ∀ s ∈ d.scenarios, ∀ t ∈ s.steps, t.Complete := by
  intro s hs t ht b hb hkind htakes
  rw [(wellFormed_of_resolve hr h s hs t ht b hb).expected hkind, htakes]

section Problems

variable [ToValue ν]

/-- Where the problem of a step would be. -/
def Step.place (source : Value) (id : String) (t : DraftStep ν) : Value × Value × Value × Value :=
  (source, .text id, .text s!"{t.kind.keyword} {t.statement}.", toValue t.line)

theorem place?_of_problem? (source : Value) (id : String) (t : DraftStep ν) :
    (t.problem? source id).map Problem.place? =
      if t.isResolved then none else some (some (t.place source id)) := by
  unfold Step.problem? Step.isResolved
  cases t.resolution <;> rfl

/-- The problems of a scenario are at the steps that are not resolved, in their order. -/
theorem places_of_problems (source : Value) (s : DraftScenario ν) :
    (s.problems source).map Problem.place? =
      (s.steps.filter (!·.isResolved)).map fun t => some (t.place source s.id) := by
  rw [Scenario.problems, List.map_filterMap]
  induction s.steps with
  | nil => rfl
  | cons t steps ih =>
    rw [List.filterMap_cons, place?_of_problem?, ih]
    cases hresolved : t.isResolved <;> simp [hresolved]

theorem problems_eq_nil (source : Value) (s : DraftScenario ν) :
    s.problems source = [] ↔ s.isResolved = true := by
  rw [← List.map_eq_nil_iff (f := Problem.place?), places_of_problems, List.map_eq_nil_iff,
    List.filter_eq_nil_iff, Scenario.isResolved, List.all_eq_true]
  simp

end Problems

theorem ready_scenarios (p : Plan) : p.ready.scenarios = p.scenarios.filter (·.isResolved) := by
  apply List.filter_congr
  intro s _
  rw [Bool.eq_iff_iff, List.isEmpty_iff, problems_eq_nil]

end Plan

namespace Emission

open Plan

theorem exists_codeLine {b : Binding Value StoredParameter} {s : StoredStep}
    (hb : b.Complete s.kind) (n : Nat) : ∃ line, codeLine n b s = .ok line := by
  unfold codeLine
  cases hkind : s.kind with
  | context => exact ⟨_, rfl⟩
  | action => exact ⟨_, rfl⟩
  | outcome =>
    unfold assertion
    cases htakes : b.comparison.takesExpected with
    | false => exact ⟨_, rfl⟩
    | true =>
      obtain ⟨p, hp⟩ := Option.isSome_iff_exists.1 (hb hkind htakes)
      rw [hp]
      exact ⟨_, rfl⟩

/-- Steps have code if all of them are resolved, and the first that is not is told otherwise. -/
theorem stepLines_of_complete (id : Value) {steps : List StoredStep}
    (h : ∀ s ∈ steps, s.Complete) (n : Nat) :
    if steps.all (·.isResolved) then ∃ lines, stepLines id n steps = .ok lines
    else ∃ k statement, stepLines id n steps = .error (.notResolved id.display k statement) := by
  induction steps generalizing n with
  | nil => exact ⟨[], rfl⟩
  | cons s steps ih =>
    obtain ⟨hs, hsteps⟩ := List.forall_mem_cons.1 h
    rw [stepLines, List.all_cons, Step.isResolved]
    cases hresolution : s.resolution with
    | resolved b =>
      obtain ⟨code, hcode⟩ := exists_codeLine (hs b hresolution)
        (if s.kind = .action then n + 1 else n)
      have hlater := ih hsteps (if s.kind = .action then n + 1 else n)
      simp only [Resolution.isResolved, Bool.true_and, hcode]
      split
      · next hall =>
        rw [if_pos hall] at hlater
        obtain ⟨lines, hlines⟩ := hlater
        exact ⟨_, bind_eq_ok.2 ⟨code, rfl, bind_eq_ok.2 ⟨lines, hlines, rfl⟩⟩⟩
      · next hall =>
        rw [if_neg hall] at hlater
        obtain ⟨k, statement, herror⟩ := hlater
        refine ⟨k, statement, ?_⟩
        rw [herror]
        rfl
    | ambiguous => exact ⟨_, _, rfl⟩
    | unresolved => exact ⟨_, _, rfl⟩

section Draft

variable {ν : Type} [ToValue ν]

/-- The scenario as data. -/
def draftData (s : DraftScenario ν) : StoredScenario := s.map .text .ofPhrase .ofParameter toValue

theorem exists_nameSource (s : DraftScenario ν) : ∃ text, nameSource (draftData s) = .text text := by
  unfold nameSource
  split
  · exact ⟨_, rfl⟩
  · cases hactions : ((draftData s).ofKind .action).head? with
    | none => exact ⟨_, rfl⟩
    | some t =>
      have hmem : t ∈ (draftData s).steps := List.mem_of_mem_filter (List.mem_of_head? hactions)
      obtain ⟨t₀, -, rfl⟩ := List.mem_map.1 hmem
      exact ⟨_, rfl⟩

theorem exists_testName (taken : List String) (s : DraftScenario ν) :
    ∃ name, testName taken (draftData s) = .ok name := by
  obtain ⟨text, htext⟩ := exists_nameSource s
  unfold testName
  rw [htext]
  exact ⟨_, rfl⟩

theorem isResolved_draftData (s : DraftScenario ν) :
    (draftData s).steps.all (·.isResolved) = s.isResolved := by
  simp [draftData, Scenario.map, Scenario.isResolved, List.all_map, Function.comp_def,
    Step.isResolved, Step.map]

/-- All that can be wrong with a test is its steps. -/
theorem exists_testCode_eq (r : Registry) (taken : List String) (s : DraftScenario ν) :
    ∃ make : List (String × String) → TestCode, (∀ code, (make code).scenarioId = .text s.id) ∧
      testCode r taken (draftData s) =
        ((stepLines (.text s.id) 0 (draftData s).steps).mapError
          fun flaw => .problem (.emission flaw)) >>= fun code => .ok (make code) := by
  obtain ⟨name, hname⟩ := exists_testName taken s
  unfold testCode
  rw [hname]
  cases (draftData s).title.isTruthy with
  | false => exact ⟨_, fun _ => rfl, rfl⟩
  | true => exact ⟨_, fun _ => rfl, rfl⟩

/-- A scenario has a test if it is resolved, and is refused for a step of its own otherwise. -/
theorem testCode_of_complete (r : Registry) (taken : List String) {s : DraftScenario ν}
    (h : ∀ t ∈ s.steps, t.Complete) :
    if s.isResolved then ∃ c, testCode r taken (draftData s) = .ok c ∧ c.scenarioId = .text s.id
    else ∃ k statement, testCode r taken (draftData s) =
      .error (.problem (.emission (.notResolved s.id k statement))) := by
  have hsteps : ∀ t ∈ (draftData s).steps, t.Complete := by
    intro t ht
    obtain ⟨t₀, ht₀, rfl⟩ := List.mem_map.1 ht
    exact (h t₀ ht₀).map _ _ _ _
  have hlines := stepLines_of_complete (.text s.id) hsteps 0
  obtain ⟨make, hid, hcode⟩ := exists_testCode_eq r taken s
  rw [isResolved_draftData] at hlines
  rw [hcode]
  cases hresolved : s.isResolved with
  | true =>
    rw [hresolved] at hlines
    obtain ⟨lines, hlines⟩ := hlines
    rw [hlines]
    exact ⟨make lines, rfl, hid lines⟩
  | false =>
    rw [hresolved] at hlines
    obtain ⟨k, statement, herror⟩ := hlines
    rw [herror]
    exact ⟨k, statement, rfl⟩

variable {ss : List (DraftScenario ν)}

/-- Scenarios have tests if all are resolved, in their order. Else the first that is not is told. -/
theorem placedFrom_of_complete (r : Registry) (h : ∀ s ∈ ss, ∀ t ∈ s.steps, t.Complete)
    (taken : List String) (offset : Nat) :
    if ss.all (·.isResolved) then ∃ ps, placedFrom r taken offset (ss.map draftData) = .ok ps ∧
      ps.map (·.test.scenarioId) = ss.map fun s => .text s.id
    else ∃ id k statement, placedFrom r taken offset (ss.map draftData) =
      .error (.problem (.emission (.notResolved id k statement))) := by
  induction ss generalizing taken offset with
  | nil => exact ⟨[], rfl, rfl⟩
  | cons s ss ih =>
    obtain ⟨hs, hss⟩ := List.forall_mem_cons.1 h
    have htest := testCode_of_complete r taken hs
    rw [List.all_cons, List.map_cons, placedFrom]
    cases hresolved : s.isResolved with
    | false =>
      rw [hresolved] at htest
      obtain ⟨k, statement, herror⟩ := htest
      rw [herror]
      exact ⟨s.id, k, statement, rfl⟩
    | true =>
      rw [hresolved] at htest
      obtain ⟨c, hc, hid⟩ := htest
      rw [hc]
      have hlater := ih hss (c.name :: taken)
        (offset + (Placed.mk c offset (draftData s).line).lines.length)
      rw [Bool.true_and]
      split
      · next hall =>
        rw [if_pos hall] at hlater
        obtain ⟨ps, hps, hids⟩ := hlater
        refine ⟨_, bind_eq_ok.2 ⟨c, rfl, bind_eq_ok.2 ⟨ps, hps, rfl⟩⟩, ?_⟩
        rw [List.map_cons, List.map_cons, hids, hid]
      · next hall =>
        rw [if_neg hall] at hlater
        obtain ⟨id, k, statement, herror⟩ := hlater
        refine ⟨id, k, statement, ?_⟩
        change (placedFrom r _ _ _ >>= _) = _
        rw [herror]
        rfl

/-- All that can be wrong with a module is its tests. -/
theorem exists_testModule_eq (r : Registry) (p : Draft ν) (slug : String) : ∃ offset,
    ∃ make : List Placed → TestModule, (∀ ps, (make ps).tests = ps.map (·.test)) ∧
      ∀ ss, testModule r p.stored slug ss = placedFrom r [] offset ss >>= fun ps => .ok (make ps) := by
  unfold testModule
  cases htruthy : p.stored.description.isTruthy with
  | false => exact ⟨_, _, fun _ => rfl, fun _ => rfl⟩
  | true => exact ⟨_, _, fun _ => rfl, fun _ => rfl⟩

theorem testModule_of_complete (r : Registry) (p : Draft ν) (slug : String)
    (h : ∀ s ∈ ss, ∀ t ∈ s.steps, t.Complete) :
    if ss.all (·.isResolved) then ∃ m, testModule r p.stored slug (ss.map draftData) = .ok m ∧
      m.tests.map (·.scenarioId) = ss.map fun s => .text s.id
    else ∃ id k statement, testModule r p.stored slug (ss.map draftData) =
      .error (.problem (.emission (.notResolved id k statement))) := by
  obtain ⟨offset, make, htests, hmodule⟩ := exists_testModule_eq r p slug
  have hplaced := placedFrom_of_complete r h [] offset
  rw [hmodule]
  split
  · next hall =>
    rw [if_pos hall] at hplaced
    obtain ⟨ps, hps, hids⟩ := hplaced
    rw [hps]
    refine ⟨make ps, rfl, ?_⟩
    rw [htests, List.map_map]
    exact hids
  · next hall =>
    rw [if_neg hall] at hplaced
    obtain ⟨id, k, statement, herror⟩ := hplaced
    rw [herror]
    exact ⟨id, k, statement, rfl⟩

end Draft
end Emission

namespace Project

open Plan Script

theorem ready_stored (d : Plan) :
    d.ready.stored.scenarios = (d.scenarios.filter (·.isResolved)).map Emission.draftData :=
  congrArg (List.map Emission.draftData) (ready_scenarios d)

theorem exists_testModule_ready (r : Registry) {d : Plan}
    (hcomplete : ∀ s ∈ d.scenarios, ∀ t ∈ s.steps, t.Complete) (slug : String) :
    ∃ m, Emission.testModule r d.stored slug d.ready.stored.scenarios = .ok m ∧
      m.tests.map (·.scenarioId) = (d.scenarios.filter (·.isResolved)).map fun s => .text s.id := by
  have hready : ∀ s ∈ d.scenarios.filter (·.isResolved), ∀ t ∈ s.steps, t.Complete :=
    fun s hs => hcomplete s (List.mem_of_mem_filter hs)
  have hmodule := Emission.testModule_of_complete r d slug hready
  rw [if_pos (by simp)] at hmodule
  rw [ready_stored]
  exact hmodule

variable {slug origin : String} {report : FileReport String Nat}

end Project
end Acceptance

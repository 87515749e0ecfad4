import Acceptance.Proofs.Rearranged
import Acceptance.Proofs.StepOrder
import Acceptance.Plan.Stored
import Acceptance.Resolution.Resolve
import Acceptance.Spec.Given
/-!
Plans as data and back. Steps are stored by kind, so a plan comes back as it was if its steps are in
order, and every plan that the compiler makes or reads is.
-/
namespace Acceptance

open Value

def StoredParameter.map (f : Value → Value) (p : StoredParameter) : StoredParameter :=
  ⟨f p.name, p.type, f p.value⟩

/-- All data in a parameter has a property. -/
def StoredParameter.Holds (Q : Value → Prop) (p : StoredParameter) : Prop := Q p.name ∧ Q p.value

namespace Plan

def resolutionHolds (Q : Value → Prop) : StoredResolution → Prop
  | .resolved b => Q b.operation ∧ (∀ p ∈ b.args, p.Holds Q) ∧ ∀ p ∈ b.expected, p.Holds Q
  | .ambiguous candidates patterns => (∀ v ∈ candidates, Q v) ∧ ∀ v ∈ patterns, Q v
  | .unresolved _ detail candidates => Q detail ∧ ∀ v ∈ candidates, Q v

structure stepHolds (Q : Value → Prop) (s : StoredStep) : Prop where
  statement : Q s.statement
  parameters : ∀ p ∈ s.parameters, p.Holds Q
  resolution : resolutionHolds Q s.resolution
  line : Q s.line

structure scenarioHolds (Q : Value → Prop) (s : StoredScenario) : Prop where
  id : Q s.id
  title : Q s.title
  steps : ∀ t ∈ s.steps, stepHolds Q t
  line : Q s.line

/-- All data in a stored plan has a property. -/
structure Document.Holds (Q : Value → Prop) (d : Stored) : Prop where
  source : Q d.source
  description : Q d.description
  scenarios : ∀ s ∈ d.scenarios, scenarioHolds Q s

theorem holds_of_forall {Q : Value → Prop} (h : ∀ v, Q v) (d : Stored) : d.Holds Q := by
  have hparameter (p : StoredParameter) : p.Holds Q := ⟨h _, h _⟩
  refine ⟨h _, h _, fun s _ => ⟨h _, h _, fun t _ => ⟨h _, fun p _ => hparameter p, ?_, h _⟩, h _⟩⟩
  cases t.resolution with
  | resolved b => exact ⟨h _, fun p _ => hparameter p, fun p _ => hparameter p⟩
  | ambiguous => exact ⟨fun v _ => h v, fun v _ => h v⟩
  | unresolved => exact ⟨h _, fun v _ => h v⟩

/-- A stored plan after a change of the data in it. -/
def Document.rearranged (f : Value → Value) (d : Stored) : Stored := d.map f f (·.map f) f

variable {f : Value → Value}

theorem shows_parameter (hf : Rearranges f) (p : StoredParameter) :
    Shows (f p.record) [("name", f p.name), ("type", f (.text p.type.name)), ("value", f p.value)] :=
  hf.record [("name", p.name), ("type", .text p.type.name), ("value", p.value)] (by simp)

theorem ofRecord_record (hf : Rearranges f) (p : StoredParameter) :
    StoredParameter.ofRecord (f p.record) = .ok (p.map f) := by
  have hshows := shows_parameter hf p
  have hmake : StoredParameter.make (f p.name) (f p.value) (f (.text p.type.name)) =
      .ok (p.map f) := by
    rw [StoredParameter.make, hf.text, Value.text?, Option.bind_some, LiteralType.ofName?_name]
    rfl
  refine bind_eq_ok.2 ⟨f p.name, hshows.item rfl, bind_eq_ok.2 ⟨f p.value, hshows.item rfl, ?_⟩⟩
  exact bind_eq_ok.2 ⟨f (.text p.type.name), hshows.item rfl, hmake⟩

theorem elements_list (vs : List Value) : elements (.list vs) = .ok vs := rfl

theorem parametersOf_records (hf : Rearranges f) (ps : List StoredParameter) :
    parametersOf (f (.list (ps.map (·.record)))) = .ok (ps.map (·.map f)) := by
  refine bind_eq_ok.2 ⟨_, by rw [hf.list, elements_list], ?_⟩
  rw [mapM_eq_ok, List.map_map, List.forall₂_map_left_iff, List.forall₂_map_right_iff,
    List.forall₂_same]
  exact fun p _ => ofRecord_record hf p

theorem expectedOf_record (hf : Rearranges f) (p : Option StoredParameter) :
    expectedOf (f ((p.map (·.record)).getD .null)) = .ok (p.map (·.map f)) := by
  cases p with
  | none =>
    rw [Option.map_none, Option.getD_none, hf.null]
    rfl
  | some p =>
    have htruthy := (shows_parameter hf p).isTruthy "name" rfl
    rw [Option.map_some, Option.getD_some, expectedOf, if_pos htruthy]
    exact bind_eq_ok.2 ⟨_, ofRecord_record hf p, rfl⟩

def stepFields (s : StoredStep) : List (String × Value) :=
  [("statement", s.statement), ("line", s.line),
    ("parameters", .list (s.parameters.map (·.record)))] ++ resolutionFields s.resolution

theorem nodup_stepFields (s : StoredStep) : ((stepFields s).map (·.1)).Nodup := by
  unfold stepFields
  cases s.resolution <;> simp [resolutionFields]

theorem shows_stepRecord (hf : Rearranges f) (s : StoredStep) :
    Shows (f (stepRecord s)) ((stepFields s).map fun (k, v) => (k, f v)) :=
  hf.record (stepFields s) (nodup_stepFields s)

theorem choice_name {α : Type} {ofName? : String → Option α} {name : α → String}
    (h : ∀ a, ofName? (name a) = some a) (title : String) (a : α) :
    choice ofName? title (.text (name a)) = .ok a := by
  simp [choice, Value.text?, h]

theorem resolutionOf_stepRecord (hf : Rearranges f) (s : StoredStep) :
    resolutionOf (f (stepRecord s)) = .ok (s.resolution.map f f (·.map f)) := by
  have hshows := shows_stepRecord hf s
  unfold stepFields at hshows
  cases hres : s.resolution with
  | resolved b =>
    rw [hres] at hshows
    have hoperation := hf.record [("id", b.operation), ("args", .list (b.args.map (·.record))),
      ("pass_result", .boolean b.passResult)] (by simp)
    refine bind_eq_ok.2 ⟨_, hshows.member? _, bind_eq_ok.2 ⟨b.map f (·.map f), ?_, rfl⟩⟩
    refine bind_eq_ok.2 ⟨_, hshows.memberD rfl _, bind_eq_ok.2 ⟨_, hoperation.item rfl, ?_⟩⟩
    refine bind_eq_ok.2 ⟨_, hoperation.memberD rfl _, ?_⟩
    refine bind_eq_ok.2 ⟨_, parametersOf_records hf b.args, ?_⟩
    refine bind_eq_ok.2 ⟨_, expectedOf_record hf b.expected, ?_⟩
    refine bind_eq_ok.2 ⟨_, hshows.memberD rfl _, ?_⟩
    refine bind_eq_ok.2 ⟨b.comparison, ?_, ?_⟩
    · rw [hf.text]
      exact choice_name Comparison.ofName?_name _ _
    · refine bind_eq_ok.2 ⟨_, hoperation.memberD rfl _, ?_⟩
      rw [hf.boolean]
      rfl
  | ambiguous candidates patterns =>
    rw [hres] at hshows
    have hquestion := hf.record [("candidates", .list candidates), ("patterns", .list patterns)]
      (by simp)
    refine bind_eq_ok.2 ⟨_, hshows.member? _, bind_eq_ok.2 ⟨_, hshows.member? _, ?_⟩⟩
    refine bind_eq_ok.2 ⟨_, hquestion.item rfl, ?_⟩
    refine bind_eq_ok.2 ⟨candidates.map f, by rw [hf.list, elements_list], ?_⟩
    refine bind_eq_ok.2 ⟨_, hquestion.memberD rfl _, ?_⟩
    exact bind_eq_ok.2 ⟨patterns.map f, by rw [hf.list, elements_list], rfl⟩
  | unresolved reason detail candidates =>
    rw [hres] at hshows
    have hquestion := hf.record [("reason", .text reason.name), ("detail", detail),
      ("candidates", .list candidates)] (by simp)
    refine bind_eq_ok.2 ⟨_, hshows.member? _, bind_eq_ok.2 ⟨_, hshows.member? _, ?_⟩⟩
    refine bind_eq_ok.2 ⟨_, hshows.memberD rfl _, ?_⟩
    refine bind_eq_ok.2 ⟨_, hquestion.memberD rfl _, bind_eq_ok.2 ⟨reason, ?_, ?_⟩⟩
    · rw [hf.text]
      exact choice_name Reason.ofName?_name _ _
    · refine bind_eq_ok.2 ⟨_, hquestion.memberD rfl _, ?_⟩
      refine bind_eq_ok.2 ⟨_, hquestion.memberD rfl _, ?_⟩
      exact bind_eq_ok.2 ⟨candidates.map f, by rw [hf.list, elements_list], rfl⟩

theorem stepOf_stepRecord (hf : Rearranges f) (s : StoredStep) :
    stepOf s.kind (f (stepRecord s)) = .ok (s.map f f (·.map f) f) := by
  have hshows := shows_stepRecord hf s
  refine bind_eq_ok.2 ⟨_, hshows.item rfl, bind_eq_ok.2 ⟨_, hshows.memberD rfl _, ?_⟩⟩
  refine bind_eq_ok.2 ⟨_, parametersOf_records hf s.parameters, ?_⟩
  refine bind_eq_ok.2 ⟨_, resolutionOf_stepRecord hf s, ?_⟩
  exact bind_eq_ok.2 ⟨_, hshows.memberD rfl _, rfl⟩

variable {ν : Type} {d : Stored}

/-- Steps in order are their contexts, then their actions, then their outcomes. -/
theorem flatten_filter_kind {τ η π : Type} {steps : List (Step τ η π ν)}
    (h : Kind.InOrder (steps.map (·.kind))) :
    (Kind.all.map fun k => steps.filter (·.kind = k)).flatten = steps := by
  simp only [Kind.all, List.map_cons, List.map_nil, List.flatten_cons, List.flatten_nil,
    List.append_nil]
  induction steps with
  | nil => rfl
  | cons s steps ih =>
    obtain ⟨hs, hrest⟩ := List.pairwise_cons.1 h
    have hnone (k : Kind) (hk : k.mayFollow s.kind = false) : steps.filter (·.kind = k) = [] := by
      rw [List.filter_eq_nil_iff]
      rintro t ht he
      have hkind : t.kind = k := by simpa using he
      rw [← hkind, hs t.kind (List.mem_map_of_mem ht)] at hk
      cases hk
    -- A kind that may not come after the first step takes nothing from the rest.
    have hsplit := ih hrest
    cases hkind : s.kind with
    | context => simp [hkind, hsplit]
    | action =>
      have hcontext := hnone .context (by rw [hkind]; rfl)
      simpa [hkind, hcontext] using hsplit
    | outcome =>
      have hcontext := hnone .context (by rw [hkind]; rfl)
      have haction := hnone .action (by rw [hkind]; rfl)
      simpa [hkind, hcontext, haction] using hsplit

def scenarioFields (s : StoredScenario) : List (String × Value) :=
  [("id", s.id), ("title", s.title), ("line", s.line)] ++
    Kind.all.map fun k => (listKey k, .list ((s.ofKind k).map stepRecord))

theorem nodup_scenarioFields (s : StoredScenario) : ((scenarioFields s).map (·.1)).Nodup := by
  simp [scenarioFields, Kind.all, listKey]

theorem shows_scenarioRecord (hf : Rearranges f) (s : StoredScenario) :
    Shows (f (scenarioRecord s)) ((scenarioFields s).map fun (k, v) => (k, f v)) :=
  hf.record (scenarioFields s) (nodup_scenarioFields s)

theorem sectionOf_scenarioRecord (hf : Rearranges f) (s : StoredScenario) (k : Kind) :
    sectionOf (f (scenarioRecord s)) k = .ok ((s.ofKind k).map (·.map f f (·.map f) f)) := by
  have hmember : (f (scenarioRecord s)).memberD (listKey k) (.list []) =
      .ok (f (.list ((s.ofKind k).map stepRecord))) := by
    refine (shows_scenarioRecord hf s).memberD ?_ _
    cases k <;> rfl
  refine bind_eq_ok.2 ⟨_, hmember, bind_eq_ok.2 ⟨_, by rw [hf.list, elements_list], ?_⟩⟩
  rw [mapM_eq_ok, List.map_map, List.forall₂_map_left_iff, List.forall₂_map_right_iff,
    List.forall₂_same]
  intro t ht
  have hkind : t.kind = k := by simpa using (List.mem_filter.1 ht).2
  rw [← hkind]
  exact stepOf_stepRecord hf t

theorem scenarioOf_scenarioRecord (hf : Rearranges f) {s : StoredScenario}
    (h : Kind.InOrder (s.steps.map (·.kind))) :
    scenarioOf (f (scenarioRecord s)) = .ok (s.map f f (·.map f) f) := by
  have hshows := shows_scenarioRecord hf s
  refine bind_eq_ok.2 ⟨Kind.all.map fun k => (s.ofKind k).map (·.map f f (·.map f) f), ?_, ?_⟩
  · rw [mapM_eq_ok, List.forall₂_map_right_iff, List.forall₂_same]
    exact fun k _ => sectionOf_scenarioRecord hf s k
  · refine bind_eq_ok.2 ⟨_, hshows.item rfl, bind_eq_ok.2 ⟨_, hshows.memberD rfl _, ?_⟩⟩
    refine bind_eq_ok.2 ⟨_, hshows.memberD rfl _, ?_⟩
    have hsteps : (Kind.all.map fun k => (s.ofKind k).map (·.map f f (·.map f) f)).flatten =
        s.steps.map (·.map f f (·.map f) f) := by
      have hmap := congrArg (List.map (Step.map f f (·.map f) f)) (flatten_filter_kind h)
      rw [List.map_flatten, List.map_map] at hmap
      exact hmap
    rw [hsteps]
    rfl

/-- In every scenario contexts come before actions, and these before outcomes. -/
def Document.InOrder {τ η π ν : Type} (d : Document τ η π ν) : Prop :=
  ∀ s ∈ d.scenarios, Kind.InOrder (s.steps.map (·.kind))

/-- A plan in order that is stored with its entries in any order is read back. -/
theorem ofValue_rearranged (hf : Rearranges f) (h : d.InOrder) :
    ofValue (f (record d)) = .ok (d.rearranged f) := by
  have hshows := hf.record [("generated", .text marker), ("spec_file", d.source),
    ("description", d.description), ("scenarios", .list (d.scenarios.map scenarioRecord))] (by simp)
  refine bind_eq_ok.2 ⟨_, hshows.memberD rfl _, ?_⟩
  refine bind_eq_ok.2 ⟨_, by rw [hf.list, elements_list], ?_⟩
  refine bind_eq_ok.2 ⟨d.scenarios.map (·.map f f (·.map f) f), ?_, ?_⟩
  · rw [mapM_eq_ok, List.map_map, List.forall₂_map_left_iff, List.forall₂_map_right_iff,
      List.forall₂_same]
    exact fun s hs => scenarioOf_scenarioRecord hf (h s hs)
  · exact bind_eq_ok.2 ⟨_, hshows.item rfl, bind_eq_ok.2 ⟨_, hshows.memberD rfl _, rfl⟩⟩

/-! A change that leaves all data of a plan alone leaves the plan alone. -/

theorem parameters_map_eq {ps : List StoredParameter}
    (h : ∀ p ∈ ps, p.Holds fun v => f v = v) : ps.map (·.map f) = ps := by
  have hparameter : ∀ p ∈ ps, p.map f = p := by
    intro p hp
    rw [StoredParameter.map, (h p hp).1, (h p hp).2]
  exact (List.map_congr_left hparameter).trans (List.map_id _)

theorem binding_map_eq {b : Binding Value StoredParameter}
    (h : resolutionHolds (fun v => f v = v) (.resolved b)) : b.map f (·.map f) = b := by
  obtain ⟨hoperation, hargs, hexpected⟩ := h
  have hoption : b.expected.map (·.map f) = b.expected := by
    cases hb : b.expected with
    | none => rfl
    | some p =>
      have hp := hexpected p hb
      rw [Option.map_some, StoredParameter.map, hp.1, hp.2]
  rw [Binding.map, hoperation, parameters_map_eq hargs, hoption]

theorem step_map_eq {t : StoredStep} (h : stepHolds (fun v => f v = v) t) :
    t.map f f (·.map f) f = t := by
  have hvalues (vs : List Value) (hvs : ∀ v ∈ vs, f v = v) : vs.map f = vs :=
    (List.map_congr_left hvs).trans (List.map_id _)
  have hresolution : t.resolution.map f f (·.map f) = t.resolution := by
    have hholds := h.resolution
    cases hres : t.resolution with
    | resolved b => exact congrArg Resolution.resolved (binding_map_eq (hres ▸ hholds))
    | ambiguous candidates patterns =>
      rw [hres] at hholds
      rw [Resolution.map, hvalues _ hholds.1, hvalues _ hholds.2]
    | unresolved reason detail candidates =>
      rw [hres] at hholds
      rw [Resolution.map, hholds.1, hvalues _ hholds.2]
  rw [Step.map, h.statement, parameters_map_eq h.parameters, hresolution, h.line]

theorem rearranged_eq (h : d.Holds fun v => f v = v) : d.rearranged f = d := by
  have hscenario : ∀ s ∈ d.scenarios, s.map f f (·.map f) f = s := by
    intro s hs
    have hholds := h.scenarios s hs
    have hsteps : s.steps.map (·.map f f (·.map f) f) = s.steps :=
      (List.map_congr_left fun t ht => step_map_eq (hholds.steps t ht)).trans (List.map_id _)
    rw [Scenario.map, hholds.id, hholds.title, hholds.line, hsteps]
  have hscenarios : d.scenarios.map (·.map f f (·.map f) f) = d.scenarios :=
    (List.map_congr_left hscenario).trans (List.map_id _)
  rw [Document.rearranged, Document.map, h.source, h.description, hscenarios]

/-- A plan in order is read back from its data. -/
theorem ofValue_record (h : d.InOrder) : ofValue (record d) = .ok d := by
  have hback := ofValue_rearranged rearranges_id h
  rwa [rearranged_eq (holds_of_forall (fun v => id_eq v) d)] at hback

/-! Plans are in order. -/

theorem inOrder_of_outOfOrder? [ToValue ν] {steps : List (Spec.Step ν)}
    (h : outOfOrder? steps = none) : Kind.InOrder (steps.map (·.kind)) := by
  induction steps with
  | nil => exact List.Pairwise.nil
  | cons s steps ih =>
    cases steps with
    | nil => exact List.pairwise_singleton _ _
    | cons t steps =>
      rw [outOfOrder?] at h
      split at h
      · next hmay => exact Kind.inOrder_cons_cons hmay (ih h)
      · cases h

theorem inOrder_ofScenario [ToValue ν] {s : Spec.Scenario String ν} (h : outOfOrder? s.steps = none) :
    Kind.InOrder ((ofScenario s).steps.map (·.kind)) := by
  have hkinds : (ofScenario s).steps.map (·.kind) = s.steps.map (·.kind) := by
    simp [ofScenario, ofStep]
  rw [hkinds]
  exact inOrder_of_outOfOrder? h

theorem outOfOrder?_of_flaw? {τ : Type} [ToValue ν] {s : Spec.Scenario τ ν} (h : flaw? s = none) :
    outOfOrder? s.steps = none := by
  unfold flaw? at h
  split at h
  · cases h
  · split at h
    · cases h
    · next hnone => exact hnone

theorem ofSpec_cases {s : Spec} {p : Plan} (h : ofSpec s = .ok p) :
    p = ⟨s.path, Text.normalize s.description, s.scenarios.map ofScenario⟩ ∧
      ∀ scenario ∈ s.scenarios, flaw? scenario = none := by
  unfold ofSpec at h
  split at h
  · cases h
  · split at h
    · cases h
    · next hnone => exact ⟨(Except.ok.inj h).symm, List.findSome?_eq_none_iff.1 hnone⟩

theorem inOrder_of_ofSpec {s : Spec} {p : Plan} (h : ofSpec s = .ok p) : p.InOrder := by
  obtain ⟨rfl, hnone⟩ := ofSpec_cases h
  intro t ht
  obtain ⟨scenario, hscenario, rfl⟩ := List.mem_map.1 ht
  exact inOrder_ofScenario (outOfOrder?_of_flaw? (hnone _ hscenario))

theorem inOrder_of_plan {s : Spec.Given} {p : Draft Value} (h : s.plan = .ok p) : p.InOrder := by
  unfold Spec.Given.plan at h
  split at h
  · cases h
  obtain ⟨scenarios, hscenarios, h⟩ := bind_eq_ok.1 h
  obtain ⟨description, -, h⟩ := bind_eq_ok.1 h
  cases h
  intro t ht
  obtain ⟨scenario, -, hplan⟩ := exists_of_mem_mapM hscenarios t ht
  unfold Spec.Given.planScenario at hplan
  split at hplan
  · cases hplan
  · next hnone =>
    obtain ⟨title, -, hplan⟩ := bind_eq_ok.1 hplan
    rw [← Except.ok.inj hplan]
    exact inOrder_ofScenario (outOfOrder?_of_flaw? hnone)

theorem inOrder_of_resolve {r : Registry} {p q : Draft ν} (hp : p.InOrder) (h : p.resolve r = .ok q) :
    q.InOrder := by
  obtain ⟨scenarios, hscenarios, h⟩ := bind_eq_ok.1 h
  cases h
  intro t ht
  obtain ⟨s, hs, ht⟩ := exists_of_mem_mapM hscenarios t ht
  obtain ⟨steps, hsteps, ht⟩ := bind_eq_ok.1 ht
  cases ht
  -- Resolving a step leaves its kind alone.
  have hkind (a b : DraftStep ν) (hab : a.resolve r = .ok b) : a.kind = b.kind := by
    obtain ⟨finding, -, hab⟩ := bind_eq_ok.1 hab
    cases hab
    rfl
  have hkinds : s.steps.map (·.kind) = steps.map (·.kind) := by
    rw [← List.forall₂_eq_eq_eq, List.forall₂_map_left_iff, List.forall₂_map_right_iff]
    exact (mapM_eq_ok.1 hsteps).imp hkind
  exact hkinds ▸ hp s hs

theorem kind_of_sectionOf {v : Value} {k : Kind} {steps : List StoredStep}
    (h : sectionOf v k = .ok steps) : ∀ s ∈ steps, s.kind = k := by
  obtain ⟨member, -, h⟩ := bind_eq_ok.1 h
  obtain ⟨elements, -, h⟩ := bind_eq_ok.1 h
  intro s hs
  obtain ⟨w, -, hw⟩ := exists_of_mem_mapM h s hs
  obtain ⟨statement, -, hw⟩ := bind_eq_ok.1 hw
  obtain ⟨list, -, hw⟩ := bind_eq_ok.1 hw
  obtain ⟨parameters, -, hw⟩ := bind_eq_ok.1 hw
  obtain ⟨resolution, -, hw⟩ := bind_eq_ok.1 hw
  obtain ⟨line, -, hw⟩ := bind_eq_ok.1 hw
  cases hw
  rfl

/-- Sections of one kind each, put together in the order of their kinds. -/
theorem inOrder_flatten {ks : List Kind} {sections : List (List StoredStep)} (hks : Kind.InOrder ks)
    (h : List.Forall₂ (fun k steps => ∀ s ∈ steps, s.kind = k) ks sections) :
    Kind.InOrder (sections.flatten.map (·.kind)) ∧ ∀ s ∈ sections.flatten, s.kind ∈ ks := by
  induction h with
  | nil => exact ⟨List.Pairwise.nil, by simp⟩
  | @cons k steps ks sections hsteps _ ih =>
    obtain ⟨hk, hks⟩ := List.pairwise_cons.1 hks
    obtain ⟨horder, hmem⟩ := ih hks
    rw [List.flatten_cons]
    constructor
    · rw [Kind.InOrder, List.map_append, List.pairwise_append]
      refine ⟨?_, horder, ?_⟩
      · rw [List.pairwise_map]
        apply List.pairwise_of_forall_mem_list
        intro s hs t ht
        rw [hsteps s hs, hsteps t ht]
        exact Kind.mayFollow_self k
      · intro i hi j hj
        obtain ⟨s, hs, rfl⟩ := List.mem_map.1 hi
        obtain ⟨t, ht, rfl⟩ := List.mem_map.1 hj
        rw [hsteps s hs]
        exact hk t.kind (hmem t ht)
    · intro s hs
      rcases List.mem_append.1 hs with hs | hs
      · rw [hsteps s hs]
        exact List.mem_cons_self
      · exact List.mem_cons_of_mem _ (hmem s hs)

theorem inOrder_of_ofValue {v : Value} (h : ofValue v = .ok d) : d.InOrder := by
  obtain ⟨member, -, h⟩ := bind_eq_ok.1 h
  obtain ⟨elements, -, h⟩ := bind_eq_ok.1 h
  obtain ⟨scenarios, hscenarios, h⟩ := bind_eq_ok.1 h
  obtain ⟨source, -, h⟩ := bind_eq_ok.1 h
  obtain ⟨description, -, h⟩ := bind_eq_ok.1 h
  cases h
  intro s hs
  obtain ⟨w, -, hw⟩ := exists_of_mem_mapM hscenarios s hs
  obtain ⟨sections, hsections, hw⟩ := bind_eq_ok.1 hw
  obtain ⟨id, -, hw⟩ := bind_eq_ok.1 hw
  obtain ⟨title, -, hw⟩ := bind_eq_ok.1 hw
  obtain ⟨line, -, hw⟩ := bind_eq_ok.1 hw
  cases hw
  have hall : Kind.InOrder Kind.all := by
    unfold Kind.InOrder
    decide
  exact (inOrder_flatten hall ((mapM_eq_ok.1 hsections).imp fun _ _ => kind_of_sectionOf)).1

end Plan
end Acceptance

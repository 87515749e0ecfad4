import Acceptance.Proofs.NamedOperands
import Acceptance.Proofs.ScenarioIds
import Acceptance.Proofs.TypedBindings
/-!
Names in tests. The actions of a test set one variable after the other, and an outcome that takes over a
result takes that of the last action, which is set on a line above. The names under which a call passes
its operands are all different, and none is a reserved word.
-/
namespace Acceptance

open Text

namespace Emission

open Plan Scan

/-! Counting actions. -/

section Actions

variable {ν : Type} {s t : DraftStep ν} {steps : List (DraftStep ν)} {i : Nat}

theorem action_of_actionsUpTo_zero (h : 0 < actionsUpTo (s :: steps) 0) : s.kind = .action := by
  by_contra hk
  rw [actionsUpTo_zero, if_neg hk] at h
  omega

/-- Where there are actions up to a step, one of them is the last. -/
theorem exists_last_action (h : 0 < actionsUpTo steps i) :
    ∃ j u, j ≤ i ∧ steps[j]? = some u ∧ u.kind = .action ∧
      actionsUpTo steps j = actionsUpTo steps i := by
  induction steps generalizing i with
  | nil => simp [actionsUpTo] at h
  | cons s steps ih =>
    cases i with
    | zero => exact ⟨0, s, Nat.le_refl 0, rfl, action_of_actionsUpTo_zero h, rfl⟩
    | succ i =>
      rw [actionsUpTo_succ] at h ⊢
      by_cases hlater : 0 < actionsUpTo steps i
      · obtain ⟨j, u, hj, hu, hk, hcount⟩ := ih hlater
        exact ⟨j + 1, u, by omega, hu, hk, by rw [actionsUpTo_succ, hcount]⟩
      -- none comes later, so the first step is the only action
      · have hfirst : 0 < actionsUpTo (s :: steps) 0 := by omega
        exact ⟨0, s, Nat.zero_le _, rfl, action_of_actionsUpTo_zero hfirst, by omega⟩

/-- An outcome comes after all actions. -/
theorem actionsUpTo_outcome (h : Kind.InOrder (steps.map (·.kind))) (ht : steps[i]? = some t)
    (hk : t.kind = .outcome) : actionsUpTo steps i = steps.countP (·.kind = .action) := by
  induction steps generalizing i with
  | nil => simp at ht
  | cons s steps ih =>
    obtain ⟨hfirst, hsteps⟩ := List.pairwise_cons.1 h
    rw [List.countP_cons]
    cases i with
    | zero =>
      cases ht
      have hnone : steps.countP (·.kind = .action) = 0 := by
        refine List.countP_eq_zero.2 fun u hu haction => ?_
        have hfollows : u.kind.mayFollow t.kind = true := hfirst u.kind (List.mem_map_of_mem hu)
        rw [of_decide_eq_true haction, hk] at hfollows
        cases hfollows
      rw [actionsUpTo_zero, hnone]
      simp
    | succ i =>
      rw [actionsUpTo_succ, actionsUpTo_zero, ih hsteps ht]
      simp [Nat.add_comm]

end Actions

/-! Variables of a test. -/

variable {ν : Type} [ToValue ν] {t : DraftStep ν} {n : Nat} {b : Binding String Parameter}
  {pairs : List (String × String)}

/-- The steps set one variable for each action, in their order. -/
theorem assigned?_stepLines {id : Value} {steps : List (DraftStep ν)}
    (h : stepLines id n (steps.map stepData) = .ok pairs)
    (hbound : ∀ t ∈ steps, ∀ b, t.resolution = .resolved b → b.WellFormed t.kind) :
    (pairs.flatMap fun pair => [pair.1, pair.2]).filterMap assigned? =
      (List.range (steps.countP (·.kind = .action))).map fun i => actionVariable (n + i + 1) := by
  induction steps generalizing n pairs with
  | nil =>
    cases h
    rfl
  | cons s steps ih =>
    obtain ⟨hs, hsteps⟩ := List.forall_mem_cons.1 hbound
    obtain ⟨b, later, hresolution, hlater, rfl⟩ := stepLines_cons h hs
    have hrest := ih hlater hsteps
    rw [actionsUpTo_zero] at hrest ⊢
    by_cases hk : s.kind = .action
    · rw [if_pos hk] at hrest ⊢
      have hshift (i : Nat) : n + (i + 1) + 1 = n + 1 + i + 1 := by omega
      simp [assigned?_commentLine, assigned?_action hk, hrest, hk, List.range_succ_eq_map, hshift]
    · rw [if_neg hk] at hrest ⊢
      simp [assigned?_commentLine, assigned?_other (hs b hresolution) hk, hrest, hk]

/-! Names of a call. -/

/-- The names under which a binding passes its parameters can stand in one call. -/
structure NamesApart (b : Binding String Parameter) : Prop where
  distinct : (b.args.map (·.name)).Nodup
  unreserved : ∀ a ∈ b.args, a.name ∉ Registry.reservedWords
  result : b.passResult = true → ∀ a ∈ b.args, a.name ≠ "result"

theorem namesApart_of_resolve {v : Value} {source : String} {r : Registry}
    (hr : Registry.ofValue v source = .ok r) {k : Kind} {statement : String}
    (h : r.resolve k statement = .ok (.resolved b)) : NamesApart b := by
  obtain ⟨t, ht, hattempt, -⟩ := Registry.exists_bound_of_resolve h
  obtain ⟨w, -, hread, captured, -, -, hfaithful⟩ := Registry.exists_faithful hr h ht hattempt
  have hwell := Template.wellFormed_of_templateOf hread
  have hnames := hfaithful.names
  rw [← hwell.holes] at hnames
  have hmem {a : Parameter} (ha : a ∈ b.args) : a.name ∈ t.holes.map (·.1) := by
    have hname := List.mem_map_of_mem (f := (·.name)) ha
    rw [hnames] at hname
    exact List.mem_of_mem_filter hname
  refine ⟨hnames ▸ hwell.distinct.filter _, fun a ha => hwell.unreserved _ (hmem ha), ?_⟩
  intro hpass a ha hresult
  exact hwell.result (hfaithful.passResult ▸ hpass) (hresult ▸ hmem ha)

/-- The call on a line of code, where the test has `k` actions and the lines above: it passes the
parameters of the binding and, where that takes over a result, the result of action `k`, which has been
set. The names are different, and none is reserved. -/
structure ScopedCall (k : Nat) (above : List String) (b : Binding String Parameter) (line : String) :
    Prop where
  distinct : ((namedOperands line).map (·.1)).Nodup
  unreserved : ∀ o ∈ namedOperands line, o.1 ∉ Registry.reservedWords
  operands : namedOperands line = (if b.passResult then [("result", actionVariable k)] else []) ++
    b.args.map fun a => (a.name, (Operand.literal a.literal).code)
  result : b.passResult = true → actionVariable k ∈ above.filterMap assigned? ∧
    ∀ value, ("result", value) ∈ namedOperands line ↔ value = actionVariable k

theorem scopedCall_boundLine (hb : b.WellFormed t.kind) (hapart : NamesApart b) {k : Nat}
    {above : List String} (hlast : b.passResult = true →
      n = k ∧ actionVariable k ∈ above.filterMap assigned?) :
    ScopedCall k above b (boundLine n t b) := by
  have hoperands : namedOperands (boundLine n t b) =
      (if b.passResult then [("result", actionVariable k)] else []) ++
        b.args.map fun a => (a.name, (Operand.literal a.literal).code) := by
    rw [namedOperands_boundLine hb, passed, List.map_append, List.map_map]
    refine congrArg (· ++ _) ?_
    split
    · next hpass =>
      rw [← (hlast hpass).1]
      rfl
    · rfl
  have hargs : (b.args.map fun a => (a.name, (Operand.literal a.literal).code)).map (·.1) =
      b.args.map (·.name) := by
    rw [List.map_map]
    rfl
  have hnames : (namedOperands (boundLine n t b)).map (·.1) =
      (if b.passResult then ["result"] else []) ++ b.args.map (·.name) := by
    rw [hoperands, List.map_append, hargs]
    split <;> rfl
  refine ⟨?_, ?_, hoperands, fun hpass => ⟨(hlast hpass).2, fun value => ?_⟩⟩
  · rw [hnames]
    split
    · next hpass =>
      refine List.nodup_cons.2 ⟨fun hmem => ?_, hapart.distinct⟩
      obtain ⟨a, ha, hresult⟩ := List.mem_map.1 hmem
      exact hapart.result hpass a ha hresult
    · exact hapart.distinct
  · have hresult : "result" ∉ Registry.reservedWords := by decide
    rw [← List.forall_mem_map (P := (· ∉ Registry.reservedWords)), hnames]
    refine List.forall_mem_append.2 ⟨?_, List.forall_mem_map.2 hapart.unreserved⟩
    split
    · exact List.forall_mem_singleton.2 hresult
    · exact List.forall_mem_nil _
  · rw [hoperands, if_pos hpass, List.singleton_append, List.mem_cons, Prod.mk.injEq, List.mem_map]
    constructor
    · intro h
      rcases h with h | ⟨a, ha, hresult⟩
      · exact h.2
      · exact absurd (Prod.mk.inj hresult).1 (hapart.result hpass a ha)
    · intro h
      exact .inl ⟨rfl, h⟩

variable {r : Registry} {s : DraftScenario ν} {q : Placed}

/-- Where a step is no action, the variable of the action before it is set further up. -/
theorem mem_assigned_above (name : String)
    (hpairs : stepLines (.text s.id) 0 (s.steps.map stepData) = .ok pairs)
    (hbound : ∀ t ∈ s.steps, ∀ b, t.resolution = .resolved b → b.WellFormed t.kind) {i : Nat}
    (ht : s.steps[i]? = some t) (hk : t.kind ≠ .action) (hacts : 0 < actionsUpTo s.steps i) :
    actionVariable (actionsUpTo s.steps i) ∈
      ((testOf r name s pairs).lines.take (6 + 2 * i)).filterMap assigned? := by
  obtain ⟨j, u, hj, hu, hkind, hlast⟩ := exists_last_action hacts
  obtain ⟨b, -, -, -, -, hline⟩ := getElem?_testOf (r := r) name hpairs hbound hu
  have hne : j ≠ i := by
    rintro rfl
    cases ht.symm.trans hu
    exact hk hkind
  have htake : ((testOf r name s pairs).lines.take (6 + 2 * i))[6 + 2 * j]? =
      some (boundLine (actionsUpTo s.steps j) u b) := by
    rw [List.getElem?_take_of_lt (by omega), hline]
  refine List.mem_filterMap.2 ⟨_, List.mem_of_getElem? htake, ?_⟩
  rw [assigned?_action hkind, hlast]

/-- There is an action, the actions of the test set one variable each, in order, and the call of every
step is well scoped. -/
structure WellScoped (s : DraftScenario ν) (test : TestCode) : Prop where
  acts : 0 < s.steps.countP (·.kind = .action)
  assigned : test.lines.filterMap assigned? =
    (List.range (s.steps.countP (·.kind = .action))).map fun i => actionVariable (i + 1)
  calls : ∀ (i : Nat) (t : DraftStep ν), s.steps[i]? = some t → ∃ (b : _) (span : Span) (line : String),
    t.resolution = .resolved b ∧ test.spans[i]? = some span ∧ test.lines[span.last - 1]? = some line ∧
    (assigned? line).isSome = (t.kind = .action : Bool) ∧
    ScopedCall (s.steps.countP (·.kind = .action)) (test.lines.take (span.last - 1)) b line

theorem TestsOf.wellScoped (h : TestsOf r s q)
    (hbound : ∀ t ∈ s.steps, ∀ b, t.resolution = .resolved b → b.WellFormed t.kind)
    (hapart : ∀ t ∈ s.steps, ∀ b, t.resolution = .resolved b → NamesApart b)
    (horder : Kind.InOrder (s.steps.map (·.kind))) (hacts : 0 < s.steps.countP (·.kind = .action)) :
    WellScoped s q.test := by
  obtain ⟨taken, pairs, -, hpairs, htest⟩ := h
  rw [htest]
  refine ⟨hacts, ?_, fun i t ht => ?_⟩
  · have hsteps := assigned?_stepLines hpairs hbound
    simp only [Nat.zero_add] at hsteps
    rw [testOf, List.filterMap_append, assigned?_headLines, List.nil_append]
    exact hsteps
  · obtain ⟨b, hb, -, hspan, -, hline⟩ := getElem?_testOf (r := r) q.test.name hpairs hbound ht
    have hmem := List.mem_of_getElem? ht
    have hwell := hbound t hmem b hb
    refine ⟨b, _, _, hb, hspan, hline, ?_, scopedCall_boundLine hwell (hapart t hmem b hb) ?_⟩
    · by_cases hk : t.kind = .action
      · rw [assigned?_action hk, decide_eq_true hk]
        rfl
      · rw [assigned?_other hwell hk, decide_eq_false hk]
        rfl
    · intro hpass
      have hk : t.kind = .outcome := by
        by_contra hk
        simp [(hwell.plain hk).2.2] at hpass
      -- all actions come before an outcome, so the last one before it is the last of all
      have hcount := actionsUpTo_outcome horder ht hk
      refine ⟨hcount, ?_⟩
      rw [← hcount] at hacts ⊢
      exact mem_assigned_above q.test.name hpairs hbound ht (by simp [hk]) hacts

end Emission

namespace Plan

theorem acts_of_flaw? {s : Spec.Scenario String Nat} (h : flaw? s = none) : 0 < s.count .action := by
  apply Nat.pos_of_ne_zero
  intro hcount
  unfold flaw? at h
  split at h
  · cases h
  · split at h
    · cases h
    · rw [if_pos (.inl hcount)] at h
      cases h

/-- Every scenario of a plan acts. -/
theorem acts_of_resolve {spec : Spec} {r : Registry} {p d : Plan} (hp : ofSpec spec = .ok p)
    (hd : p.resolve r = .ok d) : ∀ s ∈ d.scenarios, 0 < s.steps.countP (·.kind = .action) := by
  intro s hs
  have houtline : (s.id, s.told) ∈ p.outline := outline_of_resolve hd ▸ mem_outline hs
  obtain ⟨rfl, hflaws⟩ := ofSpec_cases hp
  obtain ⟨s₀, hs₀, hsame⟩ := List.mem_map.1 houtline
  obtain ⟨written, hwritten, rfl⟩ := List.mem_map.1 hs₀
  have hcount : s.steps.countP (·.kind = .action) = written.count .action := by
    calc s.steps.countP (·.kind = .action)
      _ = s.told.countP (·.1 = .action) := by rw [Scenario.told, List.countP_map]; rfl
      _ = (ofScenario written).told.countP (·.1 = .action) := by rw [(Prod.mk.inj hsame).2]
      _ = written.count .action := by
        rw [Scenario.told, List.countP_map, ofScenario, List.countP_map, Spec.Scenario.count]
        rfl
  rw [hcount]
  exact acts_of_flaw? (hflaws written hwritten)

end Plan

namespace Project

open Plan Emission

variable {v : Value} {origin : String} {r : Registry} {spec : Spec} {p d : Plan}
  {ss : List (DraftScenario Nat)} {slug : String} {m : TestModule}

/-- Whatever the registry and the spec, the tests are well scoped. -/
theorem calls_well_scoped (hr : Registry.ofValue v origin = .ok r) (hp : ofSpec spec = .ok p)
    (hd : p.resolve r = .ok d) (hss : ss ⊆ d.scenarios)
    (hm : testModule r d.stored slug (ss.map draftData) = .ok m) :
    (∀ line ∈ fixtureLines r, namedOperands line = []) ∧ List.Forall₂ WellScoped ss m.tests := by
  refine ⟨namedOperands_fixtureLines (Registry.named_of_ofValue hr), ?_⟩
  obtain ⟨qs, hqs, rfl⟩ := testModule_eq_ok hm
  obtain ⟨htests, -⟩ := placedFrom_eq_ok hqs
  have hbound := wellFormed_of_resolve hr hd
  have horder := inOrder_of_resolve (inOrder_of_ofSpec hp) hd
  have hacts := acts_of_resolve hp hd
  refine List.forall₂_map_right_iff.2 ((forall₂_mem htests).imp fun s q h => ?_)
  obtain ⟨hs, -, htest⟩ := h
  have hs := hss hs
  refine htest.wellScoped (hbound s hs) (fun t ht b hb => ?_) (horder s hs) (hacts s hs)
  obtain ⟨s₀, -, -, -, hsteps⟩ := exists_of_mem_resolve hd s hs
  obtain ⟨t₀, -, -, -, hresolve⟩ := hsteps t ht
  exact namesApart_of_resolve hr (hb ▸ hresolve)

/-- A registry whose outcome has a hole before that of the expected value, and may take over a result. -/
def totals (hole : String) (pass : Bool) : Value :=
  .record [("module", .text "ops"), ("templates", .list [
    .record [("kind", .text "WHEN"), ("pattern", .text "a"), ("operation", .text "a")],
    .record [("kind", .text "THEN"), ("pattern", .text s!"\x7b{hole}\x7d is \x7bn\x7d"),
      ("operation", .text "b"), ("expected", .text "n"), ("pass_result", .boolean pass)]])]

def totalsRegistry (hole : String) (pass : Bool) : Registry :=
  ⟨"ops", [
    ⟨.action, "a", "a", [], none, none, .eq, false⟩,
    ⟨.outcome, .ofText s!"\x7b{hole}\x7d is \x7bn\x7d", "b", [(hole, .any), ("n", .any)], some "n", none,
      .eq, pass⟩],
    none, none, "totals.yaml"⟩

def totalsSpec : Spec :=
  ⟨"<string>", "", [⟨"", [⟨.action, "a", [], 1⟩, ⟨.action, "a", [], 2⟩,
    ⟨.outcome, "5 is 6", [⟨"value", .int 5⟩, ⟨"value_2", .int 6⟩], 3⟩], 1⟩]⟩

theorem parse_totals : Spec.parse "WHEN a.\nWHEN a.\nTHEN 5 is 6." none = .ok totalsSpec :=
  eq_ok_of_toOption (by decide +kernel)

def totalsPlan : Plan :=
  ⟨totalsSpec.path, totalsSpec.description, totalsSpec.scenarios.map ofScenario⟩

theorem ofSpec_totals : ofSpec totalsSpec = .ok totalsPlan := rfl

/-- The one test of the module, with the code of its outcome. -/
structure TotalsTest (r : Registry) (code : String) (d : Plan) (m : TestModule) (test : TestCode) :
    Prop where
  resolve : totalsPlan.resolve r = .ok d
  module : testModule r d.stored "totals" (d.scenarios.map draftData) = .ok m
  tests : m.tests = [test]
  spans : test.spans.map (fun span => (span.kind, span.last)) =
    [(.action, 7), (.action, 9), (.outcome, 11)]
  lines : test.lines.drop 5 = ["    # WHEN a.", "    when_1 = ops.a()", "    # WHEN a.",
    "    when_2 = ops.a()", "    # THEN 5 is 6.", code]

theorem exists_totalsTest {code : String} (h : ((totalsPlan.resolve r).toOption.bind fun d =>
        (testModule r d.stored "totals" (d.scenarios.map draftData)).toOption.map fun m =>
          m.tests.map fun test =>
            (test.spans.map fun span => (span.kind, span.last), test.lines.drop 5)) =
      some [([(.action, 7), (.action, 9), (.outcome, 11)], ["    # WHEN a.", "    when_1 = ops.a()",
        "    # WHEN a.", "    when_2 = ops.a()", "    # THEN 5 is 6.", code])]) :
    ∃ d m test, TotalsTest r code d m test := by
  obtain ⟨d, hd, h⟩ := Option.bind_eq_some_iff.1 h
  obtain ⟨m, hm, h⟩ := Option.map_eq_some_iff.1 h
  obtain ⟨test, htest, h⟩ := List.map_eq_singleton_iff.1 h
  obtain ⟨hspans, hlines⟩ := Prod.mk.inj h
  exact ⟨d, m, test, eq_ok_of_toOption hd, eq_ok_of_toOption hm, htest, hspans, hlines⟩

theorem calls_well_scoped_totals :
    Registry.ofValue (totals "x" true) "totals.yaml" = .ok (totalsRegistry "x" true) ∧
    Spec.parse "WHEN a.\nWHEN a.\nTHEN 5 is 6." none = .ok totalsSpec ∧
    ofSpec totalsSpec = .ok totalsPlan ∧ ∃ d m test s,
      TotalsTest (totalsRegistry "x" true) "    assert ops.b(result=when_2, x=5) == 6, 'THEN 5 is 6.'"
        d m test ∧ d.scenarios = [s] ∧ WellScoped s test := by
  have hr : Registry.ofValue (totals "x" true) "totals.yaml" = .ok (totalsRegistry "x" true) :=
    eq_ok_of_toOption (by decide +kernel)
  obtain ⟨d, m, test, h⟩ : ∃ d m test, TotalsTest (totalsRegistry "x" true)
      "    assert ops.b(result=when_2, x=5) == 6, 'THEN 5 is 6.'" d m test :=
    exists_totalsTest (by decide +kernel)
  obtain ⟨-, hscoped⟩ := calls_well_scoped hr ofSpec_totals h.resolve (List.Subset.refl _) h.module
  rw [h.tests] at hscoped
  obtain ⟨s, ss, hs, hnone, hd⟩ := List.forall₂_cons_right_iff.1 hscoped
  cases List.forall₂_nil_right_iff.1 hnone
  exact ⟨hr, parse_totals, ofSpec_totals, d, m, test, s, h, hd, hs⟩

/-- An outcome that takes over no result may have a hole of that name, and then passes what the statement
says there. -/
theorem result_not_of_action :
    Registry.ofValue (totals "result" false) "totals.yaml" = .ok (totalsRegistry "result" false) ∧
    Spec.parse "WHEN a.\nWHEN a.\nTHEN 5 is 6." none = .ok totalsSpec ∧
    ofSpec totalsSpec = .ok totalsPlan ∧ ∃ d m test,
      TotalsTest (totalsRegistry "result" false) "    assert ops.b(result=5) == 6, 'THEN 5 is 6.'"
        d m test ∧
      namedOperands "    assert ops.b(result=5) == 6, 'THEN 5 is 6.'" = [("result", "5")] ∧
      ∀ k, "5" ≠ actionVariable k := by
  have hr : Registry.ofValue (totals "result" false) "totals.yaml" =
      .ok (totalsRegistry "result" false) := eq_ok_of_toOption (by decide +kernel)
  obtain ⟨d, m, test, h⟩ : ∃ d m test, TotalsTest (totalsRegistry "result" false)
      "    assert ops.b(result=5) == 6, 'THEN 5 is 6.'" d m test :=
    exists_totalsTest (by decide +kernel)
  refine ⟨hr, parse_totals, ofSpec_totals, d, m, test, h, by decide, fun k hk => ?_⟩
  have hfirst := congrArg (·.toList.head?) hk
  simp [actionVariable, toString] at hfirst

end Project
end Acceptance

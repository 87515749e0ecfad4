import Acceptance.Proofs.SourceStatements
/-!
Literals in code denote the values that are bound. Whatever a step passes or expects is read back from
its line as the same literal, with one exception: numbers that are not finite have no literals, and are
left in the code as names that nothing defines.
-/
namespace Acceptance

open Text Emission Plan

/-- The literal, if code has a way to write it. -/
def Literal.inCode? : Literal → Option Literal
  | .float .nan => none
  | .float (.infinite _) => none
  | l => some l

namespace Source

/-- The value that an expression has by itself. A name has none. -/
def Expr.value? : Expr → Option Literal
  | .literal l => some l
  | _ => none

def Condition.call : Condition → Call
  | .holds c => c
  | .fails c => c
  | .compares _ c _ => c
  | .contains _ c => c

def Condition.expected? : Condition → Option Expr
  | .compares _ _ e => some e
  | .contains e _ => some e
  | _ => none

def Statement.args : Statement → List (String × Expr)
  | .importAs _ _ => []
  | .call c => c.args
  | .assign _ c => c.args
  | .check c _ => c.call.args

def Statement.expected? : Statement → Option Expr
  | .check c _ => c.expected?
  | _ => none

theorem value?_exprOf (l : Literal) : (exprOf (.literal l)).value? = l.inCode? := by
  cases l with
  | float x =>
    cases x with
    | infinite negative => cases negative <;> rfl
    | _ => rfl
  | _ => rfl

variable {n : Nat} {b : Binding String Parameter}

theorem value?_passed : (passed n b).map (fun a => (a.1, (exprOf a.2).value?)) =
    (if b.passResult then [("result", none)] else []) ++
      b.args.map fun p => (p.name, p.literal.inCode?) := by
  have hargs : (b.args.map fun p => (p.name, Operand.literal p.literal)).map
      (fun a => (a.1, (exprOf a.2).value?)) = b.args.map fun p => (p.name, p.literal.inCode?) := by
    rw [List.map_map]
    apply List.map_congr_left
    intro p _
    exact congrArg (Prod.mk p.name) (value?_exprOf p.literal)
  rw [passed, List.map_append, hargs]
  cases b.passResult <;> rfl

theorem call_conditionOf (c : Comparison) (call : Call) (e : Option Expr) :
    (conditionOf c call e).call = call := by
  cases c <;> cases e <;> rfl

theorem expected?_conditionOf {c : Comparison} (call : Call) {e : Option Expr}
    (he : e.isSome = c.takesExpected) : (conditionOf c call e).expected? = e := by
  cases e with
  | none => cases c <;> rfl
  | some e =>
    cases c with
    | truthy | falsy => cases he
    | _ => rfl

variable {ν : Type} [ToValue ν] {t : DraftStep ν}

theorem args_statementOf : (statementOf n t b).args = (passed n b).map fun a => (a.1, exprOf a.2) := by
  unfold statementOf
  cases t.kind with
  | outcome => exact congrArg Call.args (call_conditionOf ..)
  | _ => rfl

theorem expected?_statementOf (hb : b.WellFormed t.kind) : (statementOf n t b).expected? =
    b.expected.map fun p => exprOf (.literal p.literal) := by
  unfold statementOf
  cases hk : t.kind with
  | outcome =>
    apply expected?_conditionOf
    rw [Option.isSome_map]
    exact hb.expected hk
  | _ =>
    have hne : t.kind ≠ .outcome := by
      rw [hk]
      decide
    rw [(hb.plain hne).2.1]
    rfl

/-- The line of each step is read as a statement that passes and expects the bound values, each as a
literal where code has one. -/
def LiteralsDenote (s : DraftScenario ν) (test : TestCode) : Prop :=
  ∀ (i : Nat) (t : DraftStep ν), s.steps[i]? = some t → ∃ b span line st, t.resolution = .resolved b ∧
    test.spans[i]? = some span ∧ test.lines[span.last - 1]? = some line ∧ read? line = some st ∧
      st.args.map (fun a => (a.1, a.2.value?)) = (if b.passResult then [("result", none)] else []) ++
        b.args.map (fun p => (p.name, p.literal.inCode?)) ∧
      st.expected?.map (·.value?) = b.expected.map fun p => p.literal.inCode?

theorem StepsRead.literalsDenote {s : DraftScenario ν} {test : TestCode} (h : StepsRead s test)
    (hbound : ∀ t ∈ s.steps, ∀ b, t.resolution = .resolved b → b.WellFormed t.kind) :
    LiteralsDenote s test := by
  intro i t ht
  obtain ⟨b, span, line, hb, hspan, hline, hread⟩ := h i t ht
  refine ⟨b, span, line, _, hb, hspan, hline, hread, ?_, ?_⟩
  · rw [args_statementOf, List.map_map]
    exact value?_passed
  · rw [expected?_statementOf (hbound t (List.mem_of_getElem? ht) b hb), Option.map_map]
    apply Option.map_congr
    intro p _
    exact value?_exprOf p.literal

/-- What is between quotes is read back, whatever the text is. -/
theorem tokens?_quoted (s : String) : tokens? (quoted s).toList = some [.literal (.text s)] := by
  have hread : Reads (Literal.text s).code.toList [.literal (.text s)] [] := reads_code trivial rfl rfl
  exact hread.tokens?

variable {v : Value} {origin : String} {r : Registry} {p d : Draft ν} {text : String}
  {ss : List (DraftScenario ν)} {slug : String} {m : TestModule}

/-- Literals denote the bound values. -/
theorem literals_denote (hr : Registry.ofValue v origin = .ok r) (hcanonical : r.Canonical)
    (hd : p.resolve r = .ok d) (htext : write d.stored = .ok text) (hss : ss ⊆ d.scenarios)
    (hm : testModule r d.stored slug (ss.map draftData) = .ok m) :
    List.Forall₂ LiteralsDenote ss m.tests ∧
      ∀ s : String, tokens? (quoted s).toList = some [.literal (.text s)] := by
  refine ⟨?_, tokens?_quoted⟩
  refine (forall₂_mem (stepsRead hr hcanonical hd htext hss hm)).imp fun s test h => ?_
  exact h.2.2.literalsDenote (wellFormed_of_resolve hr hd s (hss h.1))

/-! A registry with an outcome that expects a number that is not finite. -/

def setting : Value :=
  .record [("module", .text "ops"), ("templates", .list [
    .record [("kind", .text "WHEN"), ("pattern", .text "set \x7bs\x7d to \x7bn\x7d"),
      ("operation", .text "set")],
    .record [("kind", .text "THEN"), ("pattern", .text "on is \x7bb\x7d"), ("operation", .text "on")],
    .record [("kind", .text "THEN"), ("pattern", .text "it is endless"), ("operation", .text "size"),
      ("expected_value", .float (.infinite false))]])]

def settingRegistry : Registry :=
  ⟨"ops", [
    ⟨.action, "set \x7bs\x7d to \x7bn\x7d", "set", [("s", .any), ("n", .any)], none, none, .eq, false⟩,
    ⟨.outcome, "on is \x7bb\x7d", "on", [("b", .any)], some "b", none, .eq, false⟩,
    ⟨.outcome, "it is endless", "size", [], none, some (.float (.infinite false)), .eq, false⟩],
    none, none, "ops.yaml"⟩

theorem ofValue_setting : Registry.ofValue setting "ops.yaml" = .ok settingRegistry :=
  eq_ok_of_toOption (by decide +kernel)

def settingText (outcome : String) : String :=
  "WHEN set it's \\ to -2.5.\nTHEN " ++ outcome ++ "."

/-- What the steps of a plan are bound to, and the lines of a test below its head. -/
def settingView (d : Plan) (test : TestCode) : List Finding × List String :=
  (d.scenarios.flatMap fun s => s.steps.map (·.resolution), test.lines.drop 5)

/-- What is seen of a spec whose outcome is bound to `b` and becomes a line. -/
def settingSeen (outcome : String) (b : Binding String Parameter) (line : String) :
    List Finding × List String :=
  ([.resolved ⟨"set", [⟨"s", .text "it's \\"⟩, ⟨"n", .float (.ofDecimal true 25 (-1))⟩], none, .eq, false⟩,
      .resolved b],
    ["    # WHEN set it's \\ to -2.5.", "    when_1 = ops.set(s=\"it's \\\\\", n=-2.5)",
      "    # THEN " ++ outcome ++ ".", line])

theorem literals_denote_setting :
    Registry.ofValue setting "ops.yaml" = .ok settingRegistry ∧ ∃ d text m test s,
      SoleTest settingRegistry (settingText "on is true") d text m test ∧
      settingView d test = settingSeen "on is true" ⟨"on", [], some ⟨"b", .boolean true⟩, .eq, false⟩
        "    assert ops.on() == True, 'THEN on is true.'" ∧
      d.scenarios = [s] ∧ LiteralsDenote s test := by
  have hcanonical : settingRegistry.Canonical := by
    simp [Registry.Canonical, settingRegistry, Literal.Canonical, Binary64.Canonical]
  have hviews : testViews settingView settingRegistry (settingText "on is true") =
      some [settingSeen "on is true" ⟨"on", [], some ⟨"b", .boolean true⟩, .eq, false⟩
        "    assert ops.on() == True, 'THEN on is true.'"] := by decide +kernel
  obtain ⟨d, text, m, test, h, hview⟩ := exists_soleTest hviews
  obtain ⟨spec, p, -, -, hd⟩ := h.resolve
  obtain ⟨hdenote, -⟩ :=
    literals_denote ofValue_setting hcanonical hd h.text (List.Subset.refl _) h.module
  obtain ⟨s, hscenarios, hs⟩ := h.exists_scenario hdenote
  exact ⟨ofValue_setting, d, text, m, test, s, h, hview, hscenarios, hs⟩

/-- A constant that is not finite is compared with as a name. -/
theorem infinite_left_as_name :
    Registry.ofValue setting "ops.yaml" = .ok settingRegistry ∧ ∃ d text m test,
      SoleTest settingRegistry (settingText "it is endless") d text m test ∧
      settingView d test = settingSeen "it is endless"
        ⟨"size", [], some ⟨"expected", .float (.infinite false)⟩, .eq, false⟩
        "    assert ops.size() == inf, 'THEN it is endless.'" ∧
      read? "    assert ops.size() == inf, 'THEN it is endless.'" =
        some (.check (.compares "==" ⟨["ops", "size"], []⟩ (.name "inf")) "THEN it is endless.") := by
  have hviews : testViews settingView settingRegistry (settingText "it is endless") =
      some [settingSeen "it is endless" ⟨"size", [], some ⟨"expected", .float (.infinite false)⟩, .eq, false⟩
        "    assert ops.size() == inf, 'THEN it is endless.'"] := by decide +kernel
  obtain ⟨d, text, m, test, h, hview⟩ := exists_soleTest hviews
  exact ⟨ofValue_setting, d, text, m, test, h, hview, by decide +kernel⟩

end Source
end Acceptance

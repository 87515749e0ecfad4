import Acceptance.Proofs.ScopedCalls
import Acceptance.Proofs.SourceStatements
/-!
Names in code. All that registries give as names are names, but only those of holes are held against
the reserved words: a line that is emitted is valid exactly if its dotted names have no reserved word
in them and no argument is called `__debug__`, which cannot be given a value.
-/
namespace Acceptance

open Text Emission Plan

namespace Registry

/-- The names of a registry that may have points. -/
def dottedNames (r : Registry) : List String :=
  r.moduleName :: (r.setup.toList ++ r.teardown.toList ++ r.templates.map (·.operation))

theorem isDotted_of_mem_dottedNames {v : Value} {origin : String} {r : Registry} (hr : ofValue v origin = .ok r) :
    ∀ name ∈ r.dottedNames, isDotted name = true := by
  have hnamed := named_of_ofValue hr
  simp only [dottedNames, List.forall_mem_cons, List.forall_mem_append, List.forall_mem_map,
    Option.mem_toList]
  refine ⟨hnamed.moduleName, ⟨hnamed.setup, hnamed.teardown⟩, ?_⟩
  intro t ht
  obtain ⟨w, hw⟩ := exists_templateOf hr t ht
  obtain ⟨es, -, -, -, hoperation, -⟩ := templateOf_cases hw
  exact isDotted_of_dottedName hoperation

theorem usable_holes {v : Value} {origin : String} {r : Registry} (hr : ofValue v origin = .ok r) :
    ∀ t ∈ r.templates, ∀ hole ∈ t.holes, isName hole.1.toList = true ∧ hole.1 ∉ reservedWords := by
  intro t ht hole hhole
  obtain ⟨w, hw⟩ := exists_templateOf hr t ht
  have hwell := Template.wellFormed_of_templateOf hw
  have hmem : hole.1 ∈ t.holes.map (·.1) := List.mem_map_of_mem hhole
  refine ⟨?_, hwell.unreserved _ hmem⟩
  rw [hwell.holes] at hmem
  exact isName_of_mem_piecesFrom _ _ _ hmem

end Registry

namespace Source

/-! Valid statements. -/

/-- The word may be used as a name. -/
def isFree (s : String) : Bool := s ∉ Registry.reservedWords

/-- A value may be given to the name. -/
def isBindable (s : String) : Bool := isFree s && s != "__debug__"

def Expr.isValid : Expr → Bool
  | .literal _ => true
  | .name s => isFree s
  | .opposite s => isFree s

/-- The names are free, and no argument is given twice. -/
def Call.isValid (c : Call) : Bool :=
  c.path.all isFree && c.args.all (fun a => isBindable a.1 && a.2.isValid) &&
    decide (c.args.map (·.1)).Nodup

def Condition.isValid : Condition → Bool
  | .holds c => c.isValid
  | .fails c => c.isValid
  | .compares _ c e => c.isValid && e.isValid
  | .contains e c => e.isValid && c.isValid

def Statement.isValid : Statement → Bool
  | .importAs path name => path.all isFree && isBindable name
  | .call c => c.isValid
  | .assign name c => isBindable name && c.isValid
  | .check c _ => c.isValid

/-- The line is a statement with names where names must be. -/
def isValid (line : String) : Bool := (read? line).any (·.isValid)

example : isValid "    when_1 = ops.total(n=1)" = true ∧ isValid "    when_1 = ops.total(n=1, n=2)" = false ∧
    isValid "    ops.class()" = false := by decide +kernel

/-! Statements of steps. -/

/-- No part of a dotted name is reserved. -/
def Unreserved (name : String) : Prop := ∀ s ∈ segments name, s ∉ Registry.reservedWords

theorem all_isFree_segments (name : String) :
    (segments name).all isFree = true ↔ Unreserved name := by
  simp [Unreserved, isFree]

theorem isBindable_actionVariable (n : Nat) : isBindable (actionVariable n) = true := by
  -- no reserved word has an underscore in it
  have hmem : '_' ∈ (actionVariable n).toList := by
    have hcode := Operand.code_result n
    rw [Operand.code] at hcode
    rw [hcode]
    exact List.mem_append_left _ (by decide)
  have hwords : ∀ s ∈ Registry.reservedWords, '_' ∉ s.toList := by decide
  have hfree : actionVariable n ∉ Registry.reservedWords := fun h => hwords _ h hmem
  have hne : actionVariable n ≠ "__debug__" := actionVariable_ne (by decide) n
  simp [isBindable, isFree, hfree, hne]

theorem isFree_of_isBindable {s : String} (h : isBindable s = true) : isFree s = true :=
  (Bool.and_eq_true_iff.1 h).1

theorem isValid_exprOf (o : Operand) : (exprOf o).isValid = true := by
  cases o with
  | result n => exact isFree_of_isBindable (isBindable_actionVariable n)
  | literal l =>
    cases l with
    | float x =>
      cases x with
      | nan => decide
      | infinite negative => cases negative <;> decide
      | finite => rfl
    | _ => rfl

variable {n : Nat} {b : Binding String Parameter}

theorem names_passed : (passed n b).map (·.1) =
    (if b.passResult then ["result"] else []) ++ b.args.map (·.name) := by
  rw [passed, List.map_append, List.map_map]
  cases b.passResult <;> rfl

theorem nodup_passed (h : NamesApart b) : ((passed n b).map (·.1)).Nodup := by
  rw [names_passed]
  split
  · next hpass =>
    apply List.nodup_cons.2
    refine ⟨?_, h.distinct⟩
    intro hmem
    obtain ⟨a, ha, hname⟩ := List.mem_map.1 hmem
    exact h.result hpass a ha hname
  · exact h.distinct

theorem isBindable_passed (h : NamesApart b) :
    (∀ a ∈ passed n b, isBindable a.1 = true) ↔ ∀ a ∈ b.args, a.name ≠ "__debug__" := by
  have hresult : isBindable "result" = true := by decide
  have hname : ∀ a ∈ b.args, (isBindable a.name = true ↔ a.name ≠ "__debug__") := by
    intro a ha
    simp [isBindable, isFree, h.unreserved a ha]
  have hall : (∀ a ∈ passed n b, isBindable a.1 = true) ↔
      ∀ s ∈ (passed n b).map (·.1), isBindable s = true := by rw [List.forall_mem_map]
  rw [hall, names_passed, List.forall_mem_append, List.forall_mem_map]
  constructor
  · intro hbindable a ha
    exact (hname a ha).1 (hbindable.2 a ha)
  · intro hdebug
    refine ⟨?_, fun a ha => (hname a ha).2 (hdebug a ha)⟩
    split
    · exact List.forall_mem_singleton.2 hresult
    · exact List.forall_mem_nil _

theorem isValid_callOf (h : NamesApart b) : (callOf n b).isValid = true ↔
    Unreserved b.operation ∧ ∀ a ∈ b.args, a.name ≠ "__debug__" := by
  have hops : isFree "ops" = true := by decide
  have hnames : (callOf n b).args.map (·.1) = (passed n b).map (·.1) := by
    rw [callOf, List.map_map]
    rfl
  have hargs : (callOf n b).args.all (fun a => isBindable a.1 && a.2.isValid) = true ↔
      ∀ a ∈ passed n b, isBindable a.1 = true := by
    rw [callOf, List.all_map, List.all_eq_true]
    simp only [Function.comp_apply, isValid_exprOf, Bool.and_true]
  have hpath : (callOf n b).path.all isFree = true ↔ Unreserved b.operation := by
    rw [callOf, List.all_cons, hops, Bool.true_and, all_isFree_segments]
  rw [Call.isValid, Bool.and_eq_true, Bool.and_eq_true, decide_eq_true_eq, hnames, hargs, hpath,
    isBindable_passed h]
  exact and_iff_left (nodup_passed h)

theorem isValid_conditionOf (c : Comparison) (call : Call) {e : Option Expr}
    (he : ∀ x ∈ e, x.isValid = true) : (conditionOf c call e).isValid = call.isValid := by
  cases e with
  | none => cases c <;> rfl
  | some x =>
    have hx := he x rfl
    cases c <;> simp [conditionOf, Condition.isValid, hx]

variable {ν : Type} [ToValue ν] {t : DraftStep ν}

/-- Only the names of the call decide. -/
theorem isValid_statementOf : (statementOf n t b).isValid = (callOf n b).isValid := by
  unfold statementOf
  cases t.kind with
  | context => rfl
  | action =>
    rw [Statement.isValid, isBindable_actionVariable, Bool.true_and]
  | outcome =>
    apply isValid_conditionOf
    intro x hx
    obtain ⟨p, -, rfl⟩ := Option.map_eq_some_iff.1 hx
    exact isValid_exprOf _

/-! Lines. -/

theorem isValid_of_read? {line : String} {st : Statement} (h : read? line = some st) :
    isValid line = st.isValid := by
  rw [isValid, h, Option.any_some]

theorem isValid_fixtureCall {op : String} (hop : Registry.isDotted op = true) :
    isValid s!"    ops.{op}()" = true ↔ Unreserved op := by
  have hops : isFree "ops" = true := by decide
  rw [isValid_of_read? (read?_fixtureCall hop), ← all_isFree_segments]
  simp [Statement.isValid, Call.isValid, hops]

theorem isValid_import {name : String} (hname : Registry.isDotted name = true) :
    isValid s!"import {name} as ops" = true ↔ Unreserved name := by
  have hops : isBindable "ops" = true := by decide
  rw [isValid_of_read? (read?_import hname), ← all_isFree_segments]
  simp [Statement.isValid, hops]

/-- The line of each step is valid exactly if no part of the operation is reserved and no argument has
the one name that cannot be given a value. -/
def StepsValid (s : DraftScenario ν) (test : TestCode) : Prop :=
  ∀ (i : Nat) (t : DraftStep ν), s.steps[i]? = some t → ∃ b span line, t.resolution = .resolved b ∧
    test.spans[i]? = some span ∧ test.lines[span.last - 1]? = some line ∧
      (isValid line = true ↔ Unreserved b.operation ∧ ∀ a ∈ b.args, a.name ≠ "__debug__")

theorem StepsRead.stepsValid {s : DraftScenario ν} {test : TestCode} (h : StepsRead s test)
    (hapart : ∀ t ∈ s.steps, ∀ b, t.resolution = .resolved b → NamesApart b) : StepsValid s test := by
  intro i t ht
  obtain ⟨b, span, line, hb, hspan, hline, hread⟩ := h i t ht
  refine ⟨b, span, line, hb, hspan, hline, ?_⟩
  rw [isValid_of_read? hread, isValid_statementOf]
  exact isValid_callOf (hapart t (List.mem_of_getElem? ht) b hb)

theorem isName_of_mem_segments {name : String} (h : Registry.isDotted name = true) :
    ∀ s ∈ segments name, Registry.isName s.toList = true := by
  intro s hs
  obtain ⟨part, hpart, rfl⟩ := List.mem_map.1 hs
  rw [String.toList_ofList]
  exact List.all_eq_true.1 h part hpart

theorem fixtureCall_mem {r : Registry} {op : String} (h : op ∈ r.setup.toList ++ r.teardown.toList) :
    s!"    ops.{op}()" ∈ fixtureLines r := by
  have huses : usesFixture r = true := by
    rcases List.mem_append.1 h with h | h <;> simp [usesFixture, Option.mem_toList.1 h]
  rw [fixtureLines, if_pos huses]
  rcases List.mem_append.1 h with h | h <;> simp [Option.mem_toList.1 h]

variable {v : Value} {origin : String} {r : Registry} {p d : Draft ν} {text : String}
  {ss : List (DraftScenario ν)} {slug : String} {m : TestModule}

/-- What registries give as names are names, those of holes are not reserved, and code is valid where
the other names are not reserved either. -/
theorem code_valid_iff_unreserved (hr : Registry.ofValue v origin = .ok r) (hcanonical : r.Canonical)
    (hd : p.resolve r = .ok d) (htext : write d.stored = .ok text) (hss : ss ⊆ d.scenarios)
    (hm : testModule r d.stored slug (ss.map draftData) = .ok m) :
    (∀ name ∈ r.dottedNames, ∀ s ∈ segments name, Registry.isName s.toList = true) ∧
    (∀ t ∈ r.templates, ∀ hole ∈ t.holes,
      Registry.isName hole.1.toList = true ∧ hole.1 ∉ Registry.reservedWords) ∧
    s!"import {r.moduleName} as ops" ∈ moduleHead r d.source (shownDescription d) ∧
    (isValid s!"import {r.moduleName} as ops" = true ↔ Unreserved r.moduleName) ∧
    (∀ op ∈ r.setup.toList ++ r.teardown.toList, s!"    ops.{op}()" ∈ fixtureLines r ∧
      (isValid s!"    ops.{op}()" = true ↔ Unreserved op)) ∧
    List.Forall₂ StepsValid ss m.tests := by
  have hdotted := Registry.isDotted_of_mem_dottedNames hr
  refine ⟨fun name hname => isName_of_mem_segments (hdotted name hname), Registry.usable_holes hr,
    by simp [moduleHead], isValid_import (hdotted _ List.mem_cons_self), fun op hop => ?_, ?_⟩
  · refine ⟨fixtureCall_mem hop, isValid_fixtureCall (hdotted op ?_)⟩
    exact List.mem_cons_of_mem _ (List.mem_append_left _ hop)
  · refine (forall₂_mem (stepsRead hr hcanonical hd htext hss hm)).imp fun s test h => ?_
    refine h.2.2.stepsValid fun t ht b hb => ?_
    obtain ⟨s₀, -, -, -, hsteps⟩ := exists_of_mem_resolve hd s (hss h.1)
    obtain ⟨t₀, -, -, -, hresolve⟩ := hsteps t ht
    exact namesApart_of_resolve hr (hb ▸ hresolve)

/-! A shop with a setup, and a registry whose module has a reserved name. -/

def shop : Value :=
  .record [("module", .text "shop.ops"), ("setup", .text "db.reset"), ("templates", .list [
    .record [("kind", .text "WHEN"), ("pattern", .text "buy \x7bn\x7d"), ("operation", .text "cart.add")],
    .record [("kind", .text "THEN"), ("pattern", .text "done"), ("operation", .text "ok")]])]

def shopRegistry : Registry :=
  ⟨"shop.ops", [
    ⟨.action, "buy \x7bn\x7d", "cart.add", [("n", .any)], none, none, .eq, false⟩,
    ⟨.outcome, "done", "ok", [], none, none, .truthy, false⟩],
    some "db.reset", none, "shop.yaml"⟩

theorem code_valid_iff_unreserved_shop :
    Registry.ofValue shop "shop.yaml" = .ok shopRegistry ∧ ∃ d text m test s,
      SoleTest shopRegistry "WHEN buy 2.\nTHEN done." d text m test ∧
      test.lines.drop 5 = ["    # WHEN buy 2.", "    when_1 = ops.cart.add(n=2)", "    # THEN done.",
        "    assert ops.ok(), 'THEN done.'"] ∧
      d.scenarios = [s] ∧ StepsValid s test ∧ isValid "import shop.ops as ops" = true ∧
        "    ops.db.reset()" ∈ fixtureLines shopRegistry ∧ isValid "    ops.db.reset()" = true := by
  have hr : Registry.ofValue shop "shop.yaml" = .ok shopRegistry := eq_ok_of_toOption (by decide +kernel)
  have hcanonical : shopRegistry.Canonical := by simp [Registry.Canonical, shopRegistry]
  have hview : testViews (fun _ test => test.lines.drop 5) shopRegistry "WHEN buy 2.\nTHEN done." =
      some [["    # WHEN buy 2.", "    when_1 = ops.cart.add(n=2)", "    # THEN done.",
        "    assert ops.ok(), 'THEN done.'"]] := by decide +kernel
  obtain ⟨d, text, m, test, h, hlines⟩ := exists_soleTest hview
  obtain ⟨spec, p, -, -, hd⟩ := h.resolve
  obtain ⟨-, -, -, himport, hfixture, hsteps⟩ :=
    code_valid_iff_unreserved hr hcanonical hd h.text (List.Subset.refl _) h.module
  have hmodule : Unreserved "shop.ops" := (all_isFree_segments _).1 (by decide +kernel)
  have hreset : Unreserved "db.reset" := (all_isFree_segments _).1 (by decide +kernel)
  obtain ⟨hmem, hvalid⟩ := hfixture "db.reset" (by decide)
  obtain ⟨s, hscenarios, hs⟩ := h.exists_scenario hsteps
  exact ⟨hr, d, text, m, test, s, h, hlines, hscenarios, hs, himport.2 hmodule, hmem, hvalid.2 hreset⟩

/-- Registries may name a module with a reserved word, which cannot be imported. -/
theorem reserved_module_accepted :
    Registry.ofValue (.record [("module", .text "class"), ("templates", .list [])]) "<memory>" =
      .ok ⟨"class", [], none, none, "<memory>"⟩ ∧
    "class" ∈ Registry.reservedWords ∧ isValid "import class as ops" = false :=
  ⟨eq_ok_of_toOption (by decide +kernel), by decide, by decide +kernel⟩

end Source
end Acceptance

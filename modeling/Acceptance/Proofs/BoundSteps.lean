import Acceptance.Proofs.RegistryRules
/-!
What is known of a step that a registry has resolved: its operation and its arguments go by names, and
only an outcome has something to compare or takes over a result.
-/
namespace Acceptance

namespace Registry

/-- All characters of a name are letters, digits and underscores. -/
theorem isNameChar_of_isName {name : List Char} (h : isName name = true) :
    ∀ c ∈ name, Spec.isNameChar c = true := by
  cases name with
  | nil => cases h
  | cons c name =>
    obtain ⟨hstart, hname⟩ := Bool.and_eq_true_iff.1 h
    refine List.forall_mem_cons.2 ⟨?_, List.all_eq_true.1 hname⟩
    simp only [isNameStart, Spec.isNameChar, Bool.or_eq_true] at hstart ⊢
    exact hstart.imp_left .inl

theorem isDotted_of_dottedName {key : String} {v : Value} {s : String}
    (h : dottedName key v = .ok s) : isDotted s = true := by
  have hrefuse {flaw : RegistryFlaw} : refuse v flaw ≠ .ok s := by
    unfold refuse
    split <;> simp
  unfold dottedName at h
  split at h
  · split at h
    · next hdotted =>
      cases h
      exact hdotted
    · exact absurd h hrefuse
  · exact absurd h hrefuse

theorem isDotted_of_dottedName? {key : String} {es : Entries} {name : Option String}
    (h : dottedName? key es = .ok name) : ∀ s ∈ name, isDotted s = true := by
  simp only [dottedName?] at h
  split at h
  · cases hname : dottedName key (member es key) with
    | error e =>
      rw [hname] at h
      cases h
    | ok s =>
      rw [hname] at h
      cases h
      rintro s ⟨rfl⟩
      exact isDotted_of_dottedName hname
  · cases h
    simp

/-- The module and the operations around each test go by dotted names. -/
structure Named (r : Registry) : Prop where
  moduleName : isDotted r.moduleName = true
  setup : ∀ s ∈ r.setup, isDotted s = true
  teardown : ∀ s ∈ r.teardown, isDotted s = true

theorem named_of_ofValue {v : Value} {source : String} {r : Registry}
    (h : ofValue v source = .ok r) : r.Named := by
  simp only [ofValue] at h
  split at h
  · obtain ⟨es, -, h⟩ := bind_eq_ok.1 h
    obtain ⟨-, -, h⟩ := bind_eq_ok.1 h
    obtain ⟨moduleName, hmodule, h⟩ := bind_eq_ok.1 h
    obtain ⟨setup, hsetup, h⟩ := bind_eq_ok.1 h
    obtain ⟨teardown, hteardown, h⟩ := bind_eq_ok.1 h
    split at h
    · obtain ⟨entries, -, h⟩ := bind_eq_ok.1 h
      obtain ⟨templates, -, h⟩ := bind_eq_ok.1 h
      cases h
      exact ⟨isDotted_of_dottedName (eq_ok_of_mapError hmodule),
        isDotted_of_dottedName? (eq_ok_of_mapError hsetup),
        isDotted_of_dottedName? (eq_ok_of_mapError hteardown)⟩
    · cases h
  · cases h

theorem isName_of_mem_piecesFrom (q : Bool) (cs : List Char) :
    ∀ name ∈ holeNames (piecesFrom q cs), isName name.toList = true := by
  fun_induction piecesFrom q cs with
  | case1 => simp [holeNames]
  | case2 q cs name rest htake ih =>
    have hname := (of_takeHole? htake).1
    simpa [holeNames, Piece.name?, hname] using ih
  | case3 q cs htake ih => simpa [holeNames, Piece.name?] using ih
  | case4 q c cs hc ih => simpa [holeNames, Piece.name?] using ih

end Registry

/-- The parameter was made from what a hole captured. -/
def Parameter.Captured (p : Parameter) : Prop :=
  ∃ text type quoted, coerce p.name text type quoted = .ok p

theorem Parameter.captured_of_coerce {name text : String} {type : HoleType} {quoted : Bool}
    {p : Parameter} (h : coerce name text type quoted = .ok p) : p.name = name ∧ p.Captured := by
  obtain ⟨l, -, rfl⟩ := coerce_eq_ok.1 h
  exact ⟨rfl, text, type, quoted, h⟩

/-- What a binding of a step of a kind is made of. -/
structure Binding.WellFormed (k : Kind) (b : Binding String Parameter) : Prop where
  operation : Registry.isDotted b.operation = true
  names : ∀ a ∈ b.args, Registry.isName a.name.toList = true
  captured : ∀ a ∈ b.args, a.Captured
  plain : k ≠ .outcome → b.comparison = .eq ∧ b.expected = none ∧ b.passResult = false
  expected : k = .outcome → b.expected.isSome = b.comparison.takesExpected

namespace Template

variable {t : Template} {captured : List (String × String)} {b : Binding String Parameter}

/-- The parts of a binding that come from the template, and those that come from captures. -/
theorem bind_cases (h : t.bind captured = .ok b) : b.operation = t.operation ∧
    b.comparison = t.comparison ∧ b.passResult = t.passResult ∧
      (∀ a ∈ b.args, a.name ∈ t.holes.map (·.1) ∧ a.Captured) ∧
        (t.expected = none ∧ b.expected = t.constantParameter ∨
          (∃ name, t.expected = some name) ∧ ∀ p ∈ b.expected, p.Captured) := by
  obtain ⟨parameters, hparameters, h⟩ := bind_eq_ok.1 h
  have hall : ∀ p ∈ parameters, p.name ∈ t.holes.map (·.1) ∧ p.Captured := by
    intro p hp
    obtain ⟨⟨⟨name, type⟩, _, text⟩, hmem, hcoerce⟩ := exists_of_mem_mapM hparameters p hp
    obtain ⟨hname, hcaptured⟩ := Parameter.captured_of_coerce hcoerce
    refine ⟨?_, hcaptured⟩
    rw [hname]
    exact List.mem_map_of_mem (List.of_mem_zip hmem).1
  split at h
  · next hexpected =>
    cases h
    exact ⟨rfl, rfl, rfl, hall, .inl ⟨hexpected, rfl⟩⟩
  · next name hexpected =>
    cases h
    refine ⟨rfl, rfl, rfl, fun a ha => hall a (List.mem_of_mem_filter ha), .inr ⟨⟨name, hexpected⟩, ?_⟩⟩
    exact fun p hp => (hall p (List.mem_of_find?_eq_some hp)).2

end Template

namespace Registry

variable {v : Value} {source : String} {r : Registry} {k : Kind} {statement : String}
  {b : Binding String Parameter}

theorem wellFormed_of_resolve (hr : ofValue v source = .ok r)
    (h : r.resolve k statement = .ok (.resolved b)) : b.WellFormed k := by
  obtain ⟨t, ht, captured, hcaptured, hbind⟩ := exists_bind_of_resolve h
  obtain ⟨hmem, hof⟩ := List.mem_filter.1 ht
  obtain ⟨w, hw⟩ := exists_templateOf hr t hmem
  have hkind : t.kind = k := by simpa using hof
  obtain ⟨es, -, -, -, hoperation, -, hcases⟩ := templateOf_cases hw
  have hwell := Template.wellFormed_of_templateOf hw
  obtain ⟨hop, hcomparison, hpass, hargs, hexpected⟩ := Template.bind_cases hbind
  have hnames : ∀ name ∈ t.holes.map (·.1), isName name.toList = true := by
    rw [hwell.holes]
    exact isName_of_mem_piecesFrom _ _
  -- where no value is expected, neither a hole nor a constant gives one
  have hnone (hhole : t.expected = none) (hconstant : t.constant = none) : b.expected = none := by
    rcases hexpected with ⟨-, hb⟩ | ⟨⟨name, hname⟩, -⟩
    · rw [hb, Template.constantParameter, hconstant]
      rfl
    · rw [hhole] at hname
      cases hname
  refine ⟨?_, fun a ha => hnames _ (hargs a ha).1, fun a ha => (hargs a ha).2, fun hne => ?_,
    fun hout => ?_⟩
  · rw [hop]
    exact isDotted_of_dottedName hoperation
  · rcases hcases with ⟨houtcome, -⟩ | ⟨-, hhole, hconstant, hc, hp⟩
    · exact absurd (hkind.symm.trans houtcome) hne
    · exact ⟨hcomparison.trans hc, hnone hhole hconstant, hpass.trans hp⟩
  · rw [hcomparison]
    cases htakes : t.comparison.takesExpected with
    | true =>
      exact Template.expected_of_bind (hwell.expects (hkind.trans hout) htakes) hwell.expected
        (Template.names_of_captures? hw hcaptured) hbind
    | false =>
      obtain ⟨hhole, hconstant⟩ := hwell.expectsNone (hkind.trans hout) htakes
      rw [hnone hhole hconstant]
      rfl

end Registry

namespace Plan

variable {ν : Type} {r : Registry} {p d : Draft ν}

/-- Holding a plan against a registry decides about its steps and changes nothing else. -/
theorem exists_of_mem_resolve (h : p.resolve r = .ok d) :
    ∀ s ∈ d.scenarios, ∃ s₀ ∈ p.scenarios, s.id = s₀.id ∧ s.title = s₀.title ∧
      ∀ t ∈ s.steps, ∃ t₀ ∈ s₀.steps, t.kind = t₀.kind ∧ t.statement = t₀.statement ∧
        r.resolve t.kind t.statement = .ok t.resolution := by
  obtain ⟨scenarios, hscenarios, h⟩ := bind_eq_ok.1 h
  cases h
  intro s hs
  obtain ⟨s₀, hs₀, hresolve⟩ := exists_of_mem_mapM hscenarios s hs
  obtain ⟨steps, hsteps, hresolve⟩ := bind_eq_ok.1 hresolve
  cases hresolve
  refine ⟨s₀, hs₀, rfl, rfl, fun t ht => ?_⟩
  obtain ⟨t₀, ht₀, hresolve⟩ := exists_of_mem_mapM hsteps t ht
  obtain ⟨finding, hfinding, hresolve⟩ := bind_eq_ok.1 hresolve
  cases hresolve
  exact ⟨t₀, ht₀, rfl, rfl, hfinding⟩

/-- What holds of all that a registry binds holds of every step that is resolved. -/
theorem forall_resolved (h : p.resolve r = .ok d) {P : Kind → Binding String Parameter → Prop}
    (hP : ∀ {k statement b}, r.resolve k statement = .ok (.resolved b) → P k b) :
    ∀ s ∈ d.scenarios, ∀ t ∈ s.steps, ∀ b, t.resolution = .resolved b → P t.kind b := by
  intro s hs t ht b hb
  obtain ⟨s₀, -, -, -, hsteps⟩ := exists_of_mem_resolve h s hs
  obtain ⟨t₀, -, -, -, hresolve⟩ := hsteps t ht
  rw [hb] at hresolve
  exact hP hresolve

/-- Every step that is resolved has a binding of its kind. -/
theorem wellFormed_of_resolve {v : Value} {source : String} (hr : Registry.ofValue v source = .ok r)
    (h : p.resolve r = .ok d) :
    ∀ s ∈ d.scenarios, ∀ t ∈ s.steps, ∀ b, t.resolution = .resolved b → b.WellFormed t.kind :=
  forall_resolved h (Registry.wellFormed_of_resolve hr)

end Plan
end Acceptance

import Acceptance.Proofs.Outcomes
import Acceptance.Registry.Reader
/-!
What is known of a registry that has been read: each of its templates was read from an entry, and
no template has an empty pattern.
-/
namespace Acceptance.Registry

variable {source : String} {v : Value} {r : Registry} {t : Template}

/-- The entries of the templates. -/
def templateEntries (v : Value) : List Value :=
  (v.entries?.bind fun es => (member es "templates").items?).getD []

theorem forall₂_of_templatesFrom {vs : List Value} {i : Nat} {seen ts : List Template}
    (h : templatesFrom source i seen vs = .ok ts) :
    List.Forall₂ (fun v t => templateOf v = .ok t) vs ts := by
  induction vs generalizing i seen ts with
  | nil =>
    cases h
    exact .nil
  | cons v vs ih =>
    obtain ⟨t, ht, h⟩ := bind_eq_ok.1 h
    -- An entry whose pattern is there already ends the reading.
    split at h
    · cases h
    · obtain ⟨rest, hrest, h⟩ := bind_eq_ok.1 h
      cases h
      exact .cons (eq_ok_of_mapError ht) (ih hrest)

theorem templatesFrom_of_ofValue (h : ofValue v source = .ok r) :
    templatesFrom source 0 [] (templateEntries v) = .ok r.templates := by
  simp only [ofValue] at h
  split at h
  · next es hes =>
    obtain ⟨_, hsame, h⟩ := bind_eq_ok.1 h
    cases hsame
    obtain ⟨-, -, h⟩ := bind_eq_ok.1 h
    obtain ⟨moduleName, -, h⟩ := bind_eq_ok.1 h
    obtain ⟨setup, -, h⟩ := bind_eq_ok.1 h
    obtain ⟨teardown, -, h⟩ := bind_eq_ok.1 h
    split at h
    · next entries hentries =>
      obtain ⟨_, hsame, h⟩ := bind_eq_ok.1 h
      cases hsame
      obtain ⟨templates, htemplates, h⟩ := bind_eq_ok.1 h
      cases h
      rw [templateEntries, hes, Option.bind_some, hentries]
      exact htemplates
    · cases h
  · cases h

theorem exists_templatesFrom (h : ofValue v source = .ok r) :
    ∃ vs, templatesFrom source 0 [] vs = .ok r.templates :=
  ⟨_, templatesFrom_of_ofValue h⟩

/-- Each template was read from an entry. -/
theorem exists_entry (h : ofValue v source = .ok r) :
    ∀ t ∈ r.templates, ∃ w ∈ templateEntries v, templateOf w = .ok t :=
  exists_of_mem_forall₂ (forall₂_of_templatesFrom (templatesFrom_of_ofValue h))

theorem exists_templateOf (h : ofValue v source = .ok r) :
    ∀ t ∈ r.templates, ∃ w, templateOf w = .ok t := by
  intro t ht
  obtain ⟨w, -, hw⟩ := exists_entry h t ht
  exact ⟨w, hw⟩

theorem patternOf_ne_empty {p : Phrase} (h : patternOf v = .ok p) : p ≠ "" := by
  obtain ⟨shown, -, h⟩ := bind_eq_ok.1 h
  dsimp only at h
  split at h
  · cases h
  · next hne =>
    cases h
    exact hne

theorem demand_eq_ok {condition : Bool} {flaw : RegistryFlaw} :
    demand condition flaw = .ok () ↔ condition = true := by
  cases condition <;> simp [demand]

/-- How each part of a template was read. -/
theorem templateOf_cases (h : templateOf v = .ok t) :
    ∃ es, v.entries? = some es ∧ patternOf (member es "pattern") = .ok t.pattern ∧
      holesOf t.pattern (member es "params") = .ok t.holes ∧
      dottedName "operation" (member es "operation") = .ok t.operation ∧
      kindOf (member es "kind") = .ok t.kind ∧
      (t.kind = .outcome ∧ expectationOf (t.holes.map (·.1)) es =
          .ok (t.comparison, t.expected, t.constant) ∧
          (t.passResult = true → "result" ∉ t.holes.map (·.1)) ∨
        t.kind ≠ .outcome ∧ t.expected = none ∧ t.constant = none ∧ t.comparison = .eq ∧
          t.passResult = false) := by
  simp only [templateOf] at h
  split at h
  · next es hes =>
    obtain ⟨_, hsame, h⟩ := bind_eq_ok.1 h
    cases hsame
    obtain ⟨-, -, h⟩ := bind_eq_ok.1 h
    obtain ⟨unknown, -, h⟩ := bind_eq_ok.1 h
    obtain ⟨-, -, h⟩ := bind_eq_ok.1 h
    obtain ⟨kind, hread, h⟩ := bind_eq_ok.1 h
    obtain ⟨pattern, hpattern, h⟩ := bind_eq_ok.1 h
    obtain ⟨operation, hoperation, h⟩ := bind_eq_ok.1 h
    obtain ⟨holes, hholes, h⟩ := bind_eq_ok.1 h
    obtain ⟨⟨⟩, hresult, h⟩ := bind_eq_ok.1 h
    split at h
    · next hkind =>
      obtain ⟨expectation, hexpectation, h⟩ := bind_eq_ok.1 h
      cases h
      refine ⟨es, hes, hpattern, hholes, hoperation, hread, .inl ⟨hkind, hexpectation, fun hpass => ?_⟩⟩
      have hfree := demand_eq_ok.1 (eq_ok_of_mapError hresult)
      simpa [show (member es "pass_result").isTruthy = true from hpass] using hfree
    · next hkind =>
      split at h
      · cases h
      · cases h
        exact ⟨es, hes, hpattern, hholes, hoperation, hread, .inr ⟨hkind, rfl, rfl, rfl, rfl⟩⟩
  · cases h

theorem kindOf_of_templateOf {es : Entries} (hes : v.entries? = some es)
    (h : templateOf v = .ok t) : kindOf (member es "kind") = .ok t.kind := by
  obtain ⟨es', hes', -, -, -, hread, -⟩ := templateOf_cases h
  obtain rfl := Option.some.inj (hes.symm.trans hes')
  exact hread

theorem patternOf_of_templateOf (h : templateOf v = .ok t) : ∃ w, patternOf w = .ok t.pattern := by
  obtain ⟨es, -, hpattern, -⟩ := templateOf_cases h
  exact ⟨_, hpattern⟩

theorem points_pattern_ne_nil (h : ofValue v source = .ok r) :
    ∀ t ∈ r.templates, t.pattern.points ≠ [] := by
  intro t ht hnil
  obtain ⟨w, hw⟩ := exists_templateOf h t ht
  obtain ⟨w', hw'⟩ := patternOf_of_templateOf hw
  apply patternOf_ne_empty hw'
  rw [show t.pattern = ⟨t.pattern.points⟩ from rfl, hnil]
  rfl

end Acceptance.Registry

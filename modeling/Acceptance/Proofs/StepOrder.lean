import Acceptance.Proofs.Outcomes
import Acceptance.Spec.Reader
/-!
The order of steps: contexts before actions before outcomes. What is read as a scenario is in order.
-/
namespace Acceptance

namespace Kind

/-- No kind goes back behind an earlier one. -/
def InOrder (ks : List Kind) : Prop := ks.Pairwise fun j k => k.mayFollow j = true

theorem mayFollow_trans {i j k : Kind} (hij : j.mayFollow i = true) (hjk : k.mayFollow j = true) :
    k.mayFollow i = true := by
  simp only [mayFollow, decide_eq_true_eq] at *
  omega

theorem inOrder_cons_cons {j k : Kind} {ks : List Kind} (hjk : k.mayFollow j = true)
    (h : InOrder (k :: ks)) : InOrder (j :: k :: ks) := by
  refine List.pairwise_cons.2 ⟨fun i hi => ?_, h⟩
  rcases List.mem_cons.1 hi with rfl | hi
  · exact hjk
  · exact mayFollow_trans hjk (List.rel_of_pairwise_cons h hi)

end Kind

namespace Spec

variable {lead : Lead} {statement : String} {previous : Option Kind} {k : Kind} {ts : List Token}
  {steps : List (Step Nat)} {n : Nat}

theorem readSteps_of_not_isStep {line : Line} (h : line.isStep = false) :
    readSteps previous (⟨line, n⟩ :: ts) = readSteps previous ts := by
  cases line with
  | step => cases h
  | _ => rfl

/-- A step has the kind that its lead gives it and the parameters of its text. -/
theorem readSteps_cons_eq_ok : readSteps previous (⟨.step lead statement, n⟩ :: ts) = .ok steps ↔
    ∃ k ps rest, lead.kind statement previous = .ok k ∧ extract statement = .ok ps ∧
      readSteps (some k) ts = .ok rest ∧ steps = ⟨k, statement, ps, n⟩ :: rest := by
  rw [readSteps]
  constructor
  · intro h
    split at h
    · cases h
    · next k hk =>
      obtain ⟨ps, hps, h⟩ := bind_eq_ok.1 h
      obtain ⟨rest, hrest, h⟩ := bind_eq_ok.1 h
      cases h
      exact ⟨k, ps, rest, hk, eq_ok_of_mapError hps, hrest, rfl⟩
  · rintro ⟨k, ps, rest, hk, hps, hrest, rfl⟩
    rw [hk, hps]
    exact bind_eq_ok.2 ⟨ps, rfl, bind_eq_ok.2 ⟨rest, hrest, rfl⟩⟩

theorem readScenario_eq_ok {s : Scenario String Nat} : readScenario ts = .ok s ↔
    ∃ steps, readSteps none ts = .ok steps ∧ missingKind? steps = none ∧
      s = ⟨commentText (ts.takeWhile (!·.line.isStep)), steps, firstLine ts⟩ := by
  constructor
  · intro h
    obtain ⟨steps, hsteps, h⟩ := bind_eq_ok.1 h
    split at h
    · cases h
    · next hcomplete =>
      cases h
      exact ⟨steps, hsteps, hcomplete, rfl⟩
  · rintro ⟨steps, hsteps, hcomplete, rfl⟩
    refine bind_eq_ok.2 ⟨steps, hsteps, ?_⟩
    rw [hcomplete]
    rfl

theorem readTokens_eq_ok {path : String} {s : Spec} : readTokens path ts = .ok s ↔
    ∃ scenarios, ((blocks ts).filter hasStep).mapM readScenario = .ok scenarios ∧ scenarios ≠ [] ∧
      s = ⟨path, descriptionOf (blocks ts), scenarios⟩ := by
  constructor
  · intro h
    obtain ⟨scenarios, hscenarios, h⟩ := bind_eq_ok.1 h
    split at h
    · cases h
    · next hne =>
      cases h
      exact ⟨scenarios, hscenarios, by simpa using hne, rfl⟩
  · rintro ⟨scenarios, hscenarios, hne, rfl⟩
    refine bind_eq_ok.2 ⟨scenarios, hscenarios, ?_⟩
    rw [if_neg (by simpa using hne)]
    rfl

/-- What holds of each step line holds of the step that it is read as. -/
theorem forall_of_readSteps {P : Token → Prop} {Q : Step Nat → Prop}
    (hstep : ∀ lead statement n k ps, P ⟨.step lead statement, n⟩ → extract statement = .ok ps →
      Q ⟨k, statement, ps, n⟩) (hall : ∀ t ∈ ts, P t) (h : readSteps previous ts = .ok steps) :
    ∀ s ∈ steps, Q s := by
  induction ts generalizing previous steps with
  | nil =>
    cases h
    simp
  | cons t ts ih =>
    obtain ⟨ht, hts⟩ := List.forall_mem_cons.1 hall
    obtain ⟨line, n⟩ := t
    cases line with
    | step lead statement =>
      obtain ⟨k, ps, rest, -, hps, hrest, rfl⟩ := readSteps_cons_eq_ok.1 h
      exact List.forall_mem_cons.2 ⟨hstep _ _ _ _ _ ht hps, ih hts hrest⟩
    | _ => exact ih hts h

theorem mayFollow_of_lead (h : lead.kind statement previous = .ok k) : ∀ j ∈ previous, k.mayFollow j = true := by
  rintro j rfl
  cases lead with
  | keyword i =>
    simp only [Lead.kind] at h
    split at h
    · next hmay =>
      cases h
      exact hmay
    · cases h
  | again =>
    cases h
    exact Kind.mayFollow_self _
  | bare =>
    cases j <;> cases h
    rfl

/-- The steps among tokens continue the order of the step before them. -/
theorem inOrder_of_readSteps (h : readSteps previous ts = .ok steps) :
    Kind.InOrder (previous.toList ++ steps.map (·.kind)) := by
  induction ts generalizing previous steps with
  | nil =>
    cases h
    cases previous <;> simp [Kind.InOrder]
  | cons t ts ih =>
    obtain ⟨line, n⟩ := t
    cases line with
    | step lead statement =>
      obtain ⟨k, -, rest, hk, -, hrest, rfl⟩ := readSteps_cons_eq_ok.1 h
      have hfrom : Kind.InOrder (k :: rest.map (·.kind)) := ih hrest
      cases previous with
      | none => exact hfrom
      | some j => exact Kind.inOrder_cons_cons (mayFollow_of_lead hk j rfl) hfrom
    | _ => exact ih h

end Spec
end Acceptance

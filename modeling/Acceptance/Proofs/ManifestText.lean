import Acceptance.Proofs.PlacedTests
import Acceptance.Proofs.TidyFiles
/-!
Manifests are made of plain data. So the text of one is read as what it was written for, if it can be
read at all, and it does not bear the mark of a plan.
-/
namespace Acceptance

open Json (Plain IsScalar)

variable {p q : Plan} {slug : String} {m : Emission.TestModule}

namespace Emission

open Plan

variable {r : Registry}

theorem plain_span {s : Span} (hstatement : Plain IsScalar 0 s.statement)
    (hline : Plain IsScalar 0 s.specLine) (offset : Nat) : Plain IsScalar 1 (s.shift offset).record :=
  plain_fields (by simp)
    ⟨.scalar (.text _), hstatement, hline, .scalar (.int _), .scalar (.int _)⟩

theorem plain_spansFrom {steps : List StoredStep} (h : ∀ t ∈ steps, stepHolds (Plain IsScalar 0) t)
    (first offset : Nat) :
    ∀ s ∈ spansFrom first steps, Plain IsScalar 1 (s.shift offset).record := by
  induction steps generalizing first with
  | nil => simp [spansFrom]
  | cons t steps ih =>
    obtain ⟨ht, hsteps⟩ := List.forall_mem_cons.1 h
    rw [spansFrom, List.forall_mem_cons]
    exact ⟨plain_span ht.statement ht.line offset, ih hsteps _⟩

theorem plain_entry {taken : List String} {s : DraftScenario Nat} {test : TestCode}
    (h : testCode r taken (draftData s) = .ok test)
    (hs : scenarioHolds (Plain IsScalar 0) (draftData s)) (offset : Nat) :
    Plain IsScalar 3 (Placed.mk test offset (draftData s).line).entry.2 := by
  obtain ⟨name, pairs, -, -, rfl⟩ := testCode_eq_ok h
  apply plain_fields (by simp)
  refine ⟨hs.id.le (by omega), hs.title.le (by omega), hs.line.le (by omega), ?_⟩
  exact plain_list (plain_spansFrom hs.steps _ offset)

theorem plain_entries {taken : List String} {n : Nat} {ss : List (DraftScenario Nat)} {qs : List Placed}
    (h : placedFrom r taken n (ss.map draftData) = .ok qs)
    (hss : ∀ s ∈ ss, scenarioHolds (Plain IsScalar 0) (draftData s)) :
    ∀ q ∈ qs, Plain IsScalar 3 q.entry.2 := by
  induction ss generalizing taken n qs with
  | nil =>
    cases h
    simp
  | cons s ss ih =>
    obtain ⟨hs, hss⟩ := List.forall_mem_cons.1 hss
    obtain ⟨test, htest, h⟩ := bind_eq_ok.1 h
    obtain ⟨later, hlater, h⟩ := bind_eq_ok.1 h
    cases h
    exact List.forall_mem_cons.2 ⟨plain_entry htest hs n, ih hlater hss⟩

theorem plain_manifest {m : TestModule}
    (h : testModule r p.stored slug q.stored.scenarios = .ok m) :
    Plain IsScalar Json.maxDepth m.manifest := by
  obtain ⟨qs, hqs, rfl⟩ := testModule_eq_ok h
  have hplaced : placedFrom r [] _ (q.scenarios.map draftData) = .ok qs := hqs
  have hnames : (qs.map (·.test.name)).Nodup := (names_placedFrom hplaced).1
  have hholds := holds_stored (Q := Plain IsScalar 0) (fun v hv => .scalar hv)
    (fun n : Nat => .scalar (.int n)) q
  have htests : Plain IsScalar 4 (.record (qs.map (·.entry))) := by
    apply Plain.record
    · rwa [List.map_map]
    · exact List.forall_mem_map.2
        (plain_entries hqs (List.forall_mem_map.1 hholds.scenarios))
  have hmanifest : Plain IsScalar 5 (manifestOf (moduleFile slug) (.text p.source) qs) :=
    plain_fields (by simp) ⟨.scalar (.text _), .scalar (.text _), .scalar (.text _), htests⟩
  exact hmanifest.le (by decide)

end Emission

namespace Project

open Script

theorem isPlanValue_manifest {r : Registry} {scenarios : List Plan.StoredScenario}
    (h : Emission.testModule r p.stored slug scenarios = .ok m) {f : Value → Value}
    (hf : Value.Rearranges f) : isPlanValue (f m.manifest) = false := by
  obtain ⟨qs, -, rfl⟩ := Emission.testModule_eq_ok h
  have hshows := hf.record [("generated", .text Emission.generatedMarker),
    ("module", .text (Emission.moduleFile slug)), ("spec_file", .text p.source),
    ("tests", .record (qs.map (·.entry)))] (by simp)
  have hmark := isPlanValue_of_shows hshows (congrArg some (hf.text Emission.generatedMarker))
  exact hmark.trans (by decide)

/-- A manifest is never taken for a plan. -/
theorem planFileOf_manifest {r : Registry}
    (h : Emission.testModule r p.stored slug q.stored.scenarios = .ok m) :
    planFileOf (.ok (Text.encode m.manifestText)) = .ok false := by
  have htext : textOf (Text.encode m.manifestText) = .ok m.manifestText :=
    textOf_encode_write m.manifest
  obtain ⟨back, hread⟩ := Json.exists_read_or_long
  rcases hread m.manifest (Emission.plain_manifest h) with hread | ⟨-, size, hread⟩
  · rw [planFileOf_of_read htext hread]
    exact congrArg Except.ok (isPlanValue_manifest h
      (Value.rearranges_arranged rfl (fun _ => rfl) fun _ => rfl))
  · have hvalue : (textIn (.ok (Text.encode m.manifestText)) >>= fun text =>
        (Json.read text).mapError Fault.ofJson) = .error (.misfit (.integerTooLong size)) :=
      bind_eq_error.2 (.inr ⟨m.manifestText, htext, congrArg (Except.mapError Fault.ofJson) hread⟩)
    rw [planFileOf, hvalue]

theorem not_isPlanBytes_manifest {r : Registry}
    (h : Emission.testModule r p.stored slug q.stored.scenarios = .ok m) :
    ¬IsPlanBytes (Text.encode m.manifestText) := by
  intro hplan
  cases (planFileOf_of_isPlanBytes hplan).symm.trans (planFileOf_manifest h)

end Project
end Acceptance

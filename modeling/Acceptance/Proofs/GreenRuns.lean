import Acceptance.Proofs.ReportedRuns
/-!
What a green run vouches for. All test modules of the directory were run, the program came to an end
and left a report, and every test that the report tells of has passed. The exit code is told along with
the verdict and has no part in it, nor do tests that only a manifest names.
-/
namespace Acceptance

theorem TestResult.name_ofCase (e : Xml.Element) : (TestResult.ofCase e).name = e.valueOf "name" := by
  unfold ofCase
  dsimp only
  split <;> rfl

theorem TestResult.file_ofCase (e : Xml.Element) :
    (TestResult.ofCase e).file = moduleOfClass (e.valueOf "classname") := by
  unfold ofCase
  dsimp only
  split <;> rfl

namespace Project

open Script

variable {dir root : Path} {w w' : World} {timeout : Value} {run : TestRun String}

/-- The result is the one of the test that the element tells of, and the test has passed. -/
structure IsPassed (e : Xml.Element) (r : TestResult String) : Prop where
  name : r.name = e.valueOf "name"
  file : r.file = moduleOfClass (e.valueOf "classname")
  element : e.Passed
  status : r.status = .passed

/-- There is a test module under this path in the directory. -/
def IsTestFile (w : World) (dir p : Path) : Prop :=
  ∃ name, fitsName "test_" ".py" name = true ∧ w.tree.get? (dir.place ++ [name]) ≠ none ∧
    p = dir.child name

/-- The results of a green run are those of the report's tests, one by one. -/
theorem forall₂_isPassed {doc : Xml.Element} {ms : Manifests}
    (hresults : (resultsOf doc).mapM (·.attach ms) = .ok run.results) (hgreen : run.isGreen = true) :
    List.Forall₂ IsPassed (doc.all.filter (·.name == "testcase")) run.results := by
  have hpassed : ∀ r ∈ run.results, r.status = .passed := by
    simp only [TestRun.isGreen, Bool.and_eq_true, List.all_eq_true, decide_eq_true_eq] at hgreen
    exact hgreen.2
  have hall := forall₂_mem (List.forall₂_map_left_iff.1 (mapM_eq_ok.1 hresults))
  refine hall.imp fun e r her => ?_
  obtain ⟨-, hr, hattach⟩ := her
  obtain ⟨hname, hfile, hstatus⟩ := TestResult.kept_of_attach hattach
  have hr := hpassed r hr
  exact ⟨hname.trans (TestResult.name_ofCase e), hfile.trans (TestResult.file_ofCase e),
    (TestResult.status_ofCase e).1 (hstatus.symm.trans hr), hr⟩

/-- Making a report leaves everything as it is. -/
theorem world_of_runReport {ending : Ending} (hdir : (isDir dir).Does w true w)
    (h : (runReport dir timeout ending).Does w run w') : w' = w := by
  cases ending with
  | timedOut => exact (does_pure.1 h).2.symm
  | missing => exact (does_pure.1 h).2.symm
  | exited report code output errors =>
    cases report with
    | none => exact (does_pure.1 h).2.symm
    | some xml =>
      obtain ⟨results, w₁, hresults, h⟩ := does_bind.1 h
      obtain ⟨-, rfl⟩ := does_ofOutcome.1 hresults
      obtain ⟨ms, w₂, hms, h⟩ := does_bind.1 h
      obtain ⟨files, -, hload⟩ := exists_manifestFiles hdir
      obtain ⟨-, rfl⟩ := Prod.mk.inj (hload.symm.trans hms)
      obtain ⟨attached, w₃, hattached, h⟩ := does_bind.1 h
      obtain ⟨-, rfl⟩ := does_ofFit.1 hattached
      exact (does_pure.1 h).2.symm

/-- Where nothing is selected, all test modules are run, and nothing else happens. -/
theorem world_of_runTests (h : (runTests dir root timeout []).Does w run w')
    (htests : HasTests w dir) : ∃ targets : List Path, (∀ p, p ∈ targets ↔ IsTestFile w dir p) ∧
      w' = { w with
        launches := w.launches ++ [⟨targets.map (·.text), dir.text, root.text, timeout⟩] } := by
  obtain ⟨targets, w₁, htargets, hrest⟩ := does_bind.1 h
  obtain ⟨rfl, hne⟩ := does_testModules htargets
  obtain ⟨-, -, hstat⟩ := does_isDir_true.1 htests.1
  refine ⟨targets, fun p => ?_, ?_⟩
  · obtain ⟨b, w₂, hdir, hchildren⟩ := does_bind.1 htargets
    obtain ⟨rfl, rfl⟩ := hdir.unique htests.1
    exact mem_childrenNamed hstat hchildren
  · rw [if_neg (by simpa using hne.2 htests)] at hrest
    obtain ⟨ending, w₂, hending, hreport⟩ := does_bind.1 hrest
    obtain ⟨rfl, rfl⟩ := Prod.mk.inj (does_ask.1 hending)
    exact world_of_runReport (does_isDir_true.2 ⟨rfl, (does_isDir_true.1 htests.1).2⟩) hreport

/-- A green run vouches for the tests that its report tells of. All modules of the directory have been
run, the program has come to an end and left a report, and the results are those of the report's
tests, all of which have passed. This is also enough for a run to be green: neither the exit code,
which is told as it is, nor a test that only a manifest names makes a difference. -/
theorem green_run_passed (h : (runTests dir root timeout []).Does w run w') :
    (run.isGreen = true ↔ HasTests w dir ∧ EndsWell w.ending) ∧
    (run.isGreen = true → ∃ (targets : List Path) (xml : String) (code : Int) (output errors : String)
        (doc : Xml.Element),
      (∀ p, p ∈ targets ↔ IsTestFile w dir p) ∧
      w' = { w with
        launches := w.launches ++ [⟨targets.map (·.text), dir.text, root.text, timeout⟩] } ∧
      w.ending = .exited (some xml) code output errors ∧
      Xml.read? (String.ofList (Text.unifyBreaks xml.toList)) = some doc ∧
      run.exitCode = some code ∧ run.results ≠ [] ∧
      List.Forall₂ IsPassed (doc.all.filter (·.name == "testcase")) run.results) := by
  refine ⟨isGreen_of_runTests h, fun hgreen => ?_⟩
  obtain ⟨htests, xml, code, output, errors, doc, hending, hxml, -⟩ := (isGreen_of_runTests h).1 hgreen
  obtain ⟨targets, htargets, hworld⟩ := world_of_runTests h htests
  obtain ⟨⟨-, ms, -, -, hresults⟩, -, hcode⟩ := results_of_runTests h htests hending hxml
  have hne : run.results ≠ [] := by
    simp only [TestRun.isGreen, Bool.and_eq_true, Bool.not_eq_true', List.isEmpty_eq_false_iff] at hgreen
    exact hgreen.1.2
  exact ⟨targets, xml, code, output, errors, doc, htargets, hworld, hending, hxml, hcode, hne,
    forall₂_isPassed hresults hgreen⟩

/-- A manifest that names two tests. -/
def twoTests : ByteArray :=
  Text.encode "\x7b\"tests\": \x7b\"test_one\": \x7b\x7d, \"test_two\": \x7b\x7d\x7d\x7d"

theorem exists_run_twoTests : ∃ run w', (runTests testDir here (.int 120) []).Does
    (leftWith onePassed 2 twoTests) run w' ∧ run.isGreen = true ∧ run.exitCode = some 2 ∧
      run.results.map (·.name) = ["test_one"] := by
  have hresults : resultsOfXml (String.ofList (Text.unifyBreaks onePassed.toList)) =
      .ok [.ofCase passedCase] := by cbv
  have hreport : ((runReport testDir (.int 120) (leftWith onePassed 2 twoTests).ending).run
      (leftWith onePassed 2 twoTests)).1.toOption.map (fun run =>
        (run.isGreen, run.exitCode, run.results.map (·.name))) = some (true, some 2, ["test_one"]) := by
    simp only [leftWith, runReport, hresults]
    decide +kernel
  rw [← fst_run_of_hasTests (hasTests_leftWith ..) here _ []] at hreport
  obtain ⟨run, hrun, htold⟩ := Option.map_eq_some_iff.1 hreport
  simp only [Prod.mk.injEq] at htold
  exact ⟨run, _, Prod.ext (eq_ok_of_toOption hrun) rfl, htold⟩

/-- The program ended with the code 2, the run is green, and it has the one result of its report. -/
theorem green_run_passed_one : ∃ run w', (runTests testDir here (.int 120) []).Does
    (leftWith onePassed 2 twoTests) run w' ∧ run.isGreen = true ∧ run.exitCode = some 2 ∧
      ∃ r, run.results = [r] ∧ IsPassed passedCase r := by
  obtain ⟨run, w', h, hgreen, -, -⟩ := exists_run_twoTests
  obtain ⟨_, xml, code, _, _, doc, -, -, hending, hxml, hcode, -, hall⟩ := (green_run_passed h).2 hgreen
  obtain ⟨_, _, _, _, hending', hxml'⟩ := tells_onePassed 2 twoTests
  cases hending
  cases hending'
  cases hxml.symm.trans hxml'
  refine ⟨run, w', h, hgreen, hcode, ?_⟩
  obtain ⟨r, rest, hr, hrest, hcons⟩ := List.forall₂_cons_left_iff.1 hall
  cases hrest
  exact ⟨r, hcons, hr⟩

/-- A run can be green although the program has failed and a test of the manifest is not told of. -/
theorem green_run_of_failure : ∃ run w', (runTests testDir here (.int 120) []).Does
    (leftWith onePassed 2 twoTests) run w' ∧ run.isGreen = true ∧ run.exitCode = some 2 ∧
      (∃ v, dataIn (.ok twoTests) = .ok v ∧ (v.at? "tests").bind (·.at? "test_two") ≠ none) ∧
      ∀ r ∈ run.results, r.name ≠ "test_two" := by
  obtain ⟨run, w', h, hgreen, hcode, hnames⟩ := exists_run_twoTests
  refine ⟨run, w', h, hgreen, hcode, ?_, fun r hr => ?_⟩
  · have hdata : ((dataIn (.ok twoTests)).toOption.bind fun v =>
        (v.at? "tests").bind (·.at? "test_two")).isSome = true := by decide +kernel
    obtain ⟨entry, hentry⟩ := Option.isSome_iff_exists.1 hdata
    obtain ⟨v, hv, hentry⟩ := Option.bind_eq_some_iff.1 hentry
    exact ⟨v, eq_ok_of_toOption hv, by rw [hentry]; simp⟩
  · have hname : r.name ∈ run.results.map (·.name) := List.mem_map_of_mem hr
    rw [hnames, List.mem_singleton] at hname
    simp [hname]

end Project
end Acceptance

import Mathlib
import Acceptance.Proofs.ManifestFiles
import Acceptance.Proofs.Verdict
/-!
Which runs of the tests are reported. However the test program ends, and whatever lies beside the
test modules, a run is reported unless the report of the program is no document, a manifest is no
text or its data is no manifest, or a message counts lines with a number that is too long to be read.
Manifests that the system does not read, or that hold no data, do no harm, and without a good report
the run is red.
-/
namespace Acceptance

variable {α : Type} {timeout : Value} {select : List String}

/-! Scripts that stop. -/

theorem World.update_launched (w : World) (ls : List Launch) (p : Path) (target : Option Path)
    (r : Except OsCause Tree) : World.update { w with launches := ls } p target r =
      ((w.update p target r).1, { (w.update p target r).2 with launches := ls }) := by
  unfold World.update
  split <;> rfl

theorem World.look_launched (w : World) (ls : List Launch) (p : Path) (r : Except OsCause α) :
    World.look { w with launches := ls } p r =
      ((w.look p r).1, { w with launches := ls }) := by
  unfold World.look
  split <;> rfl

/-- What has been launched before makes no difference to an operation. -/
theorem Op.perform_launched (op : Op) (w : World) (ls : List Launch) :
    ∃ ls', op.perform { w with launches := ls } =
      ((op.perform w).1, { (op.perform w).2 with launches := ls' }) := by
  cases op with
  | stat p =>
    refine ⟨ls, ?_⟩
    unfold Op.perform World.stat
    dsimp only
    split
    · rfl
    · rw [World.look_launched, w.look_snd]
  | read p =>
    refine ⟨ls, (World.look_launched w ls p _).trans (Prod.ext rfl ?_)⟩
    exact congrArg (fun v : World => { v with launches := ls }) (w.look_snd p _).symm
  | makeDir p => exact ⟨ls, World.update_launched ..⟩
  | write p bytes => exact ⟨ls, World.update_launched ..⟩
  | move p q => exact ⟨ls, World.update_launched ..⟩
  | remove p => exact ⟨ls, World.update_launched ..⟩
  | listBelow p => exact ⟨ls, rfl⟩
  | launch l => exact ⟨ls ++ [l], rfl⟩
  | say line => exact ⟨ls, rfl⟩

namespace Script

theorem fst_run_launched (s : Script α) (w : World) (ls : List Launch) :
    (s.run { w with launches := ls }).1 = (s.run w).1 := by
  induction s generalizing w ls with
  | done a => rfl
  | stop f => rfl
  | call op next ih =>
    obtain ⟨ls', hperform⟩ := op.perform_launched w ls
    rw [run_call, run_call, hperform, ih]

theorem fst_run_bind {β : Type} {s : Script α} {k : α → Script β} {w : World} {f : Fault} :
    ((s >>= k).run w).1 = .error f ↔ (s.run w).1 = .error f ∨
      ∃ a w₁, s.Does w a w₁ ∧ ((k a).run w₁).1 = .error f := by
  rw [run_bind]
  unfold Does
  rcases hs : s.run w with ⟨_ | a, w₁⟩
  · simp
  · simp

end Script

namespace Project

open Script

/-- There is a file under the name of a manifest in the directory. -/
def IsManifestFile (w : World) (dir p : Path) : Prop :=
  ∃ name, fitsName "test_" ".json" name = true ∧ w.tree.get? (dir.place ++ [name]) ≠ none ∧
    p = dir.child name

section Runs

variable {dir root : Path} {w : World} {f : Fault}

/-- Loading the manifests of a directory comes to reading its files. -/
theorem exists_manifestFiles (hdir : (isDir dir).Does w true w) :
    ∃ files, (∀ p, p ∈ files ↔ IsManifestFile w dir p) ∧
      (loadManifests dir).run w = (manifestsIn (replyOf w) files, w) := by
  obtain ⟨-, -, hstat⟩ := does_isDir_true.1 hdir
  obtain ⟨files, hfiles⟩ := exists_childrenNamed "test_" ".json" dir w
  refine ⟨files, fun p => mem_childrenNamed hstat hfiles, ?_⟩
  rw [loadManifests, run_bind_of_does hdir, if_pos rfl, run_bind_of_does hfiles, run_addManifests]
  rfl

/-! Runs. -/

/-- The program has left a report, which is this document. -/
def Tells (ending : Ending) (doc : Xml.Element) : Prop :=
  ∃ xml code output errors, ending = .exited (some xml) code output errors ∧
    Xml.read? (String.ofList (Text.unifyBreaks xml.toList)) = some doc

/-- The results of a document, in its order. -/
def resultsOf (doc : Xml.Element) : List (TestResult String) :=
  (doc.all.filter (·.name == "testcase")).map .ofCase

/-- Why a run of the tests of a directory is not reported. -/
inductive Unreported (dir : Path) (w : World) : Fault → Prop
  | directory {f : Fault} (h : ((isDir dir).run w).1 = .error f) : Unreported dir w f
  | report {xml output errors : String} {code : Int} (htests : HasTests w dir)
      (hending : w.ending = .exited (some xml) code output errors)
      (h : Xml.read? (String.ofList (Text.unifyBreaks xml.toList)) = none) : Unreported dir w .xml
  | manifest {doc : Xml.Element} {p : Path} {f : Fault} (htests : HasTests w dir)
      (hdoc : Tells w.ending doc) (hp : IsManifestFile w dir p) (h : Obstructs (replyOf w p) f) :
      Unreported dir w f
  | result {doc : Xml.Element} {manifests : Manifests} {r : TestResult String} {m : Misfit}
      (htests : HasTests w dir) (hdoc : Tells w.ending doc)
      (hmanifests : (loadManifests dir).Does w manifests w) (hr : r ∈ resultsOf doc)
      (h : r.attach manifests = .error m)
      (hwhy : LongLine r m ∨ ∃ p v, IsManifestFile w dir p ∧ dataIn (replyOf w p) = .ok v ∧
        v.isManifest = false) : Unreported dir w (.misfit m)

/-- Looking for the test modules fails only if nothing can be said about the directory. -/
theorem testModules_cases (dir : Path) (w : World) :
    (∃ f, ((isDir dir).run w).1 = .error f ∧ ((testModules dir).run w).1 = .error f) ∨
      (∃ b, (isDir dir).Does w b w) ∧ ∃ modules, (testModules dir).Does w modules w := by
  rcases hrun : (isDir dir).run w with ⟨f | b, w₁⟩
  · refine .inl ⟨f, rfl, fst_run_bind.2 (.inl ?_)⟩
    rw [hrun]
  · obtain ⟨rfl, -⟩ := does_isDir.1 hrun
    refine .inr ⟨⟨b, hrun⟩, ?_⟩
    cases b with
    | true =>
      obtain ⟨modules, hmodules⟩ := exists_childrenNamed "test_" ".py" dir w
      exact ⟨modules, does_bind.2 ⟨true, w, hrun, hmodules⟩⟩
    | false => exact ⟨[], does_bind.2 ⟨false, w, hrun, rfl⟩⟩

/-- Where there are tests, what a run comes to is the making of its report. -/
theorem fst_run_of_hasTests (htests : HasTests w dir) (root : Path) (timeout : Value)
    (select : List String) : ((runTests dir root timeout select).run w).1 =
      ((runReport dir timeout w.ending).run w).1 := by
  rcases testModules_cases dir w with ⟨f, hdir, -⟩ | ⟨-, modules, hmodules⟩
  · rw [htests.1] at hdir
    cases hdir
  · have hne : ¬modules.isEmpty = true := by simpa using (does_testModules hmodules).2.2 htests
    rw [runTests, run_bind_of_does hmodules, if_neg hne]
    dsimp only
    rw [run_bind_of_does (does_ask.2 rfl), fst_run_launched]

/-- A run stops where nothing can be said about the directory, or else in the making of the report. -/
theorem fst_run_runTests :
    ((runTests dir root timeout select).run w).1 = .error f ↔ ((isDir dir).run w).1 = .error f ∨
      HasTests w dir ∧ ((runReport dir timeout w.ending).run w).1 = .error f := by
  by_cases htests : HasTests w dir
  · rw [fst_run_of_hasTests htests, htests.1]
    simp [htests]
  · simp only [htests, false_and, or_false]
    rcases testModules_cases dir w with ⟨f', hdir, hstop⟩ | ⟨⟨b, hdir⟩, modules, hmodules⟩
    · have hrun : ((runTests dir root timeout select).run w).1 = .error f' :=
        fst_run_bind.2 (.inl hstop)
      rw [hdir, hrun]
      simp
    · have hempty : modules.isEmpty = true := by
        simpa using mt (does_testModules hmodules).2.1 htests
      rw [hdir, runTests, run_bind_of_does hmodules, if_pos hempty]
      simp

theorem fst_run_runReport {xml output errors : String} {code : Int} :
    ((runReport dir timeout (.exited (some xml) code output errors)).run w).1 = .error f ↔
    (Xml.read? (String.ofList (Text.unifyBreaks xml.toList)) = none ∧ f = .xml) ∨
    ∃ doc, Xml.read? (String.ofList (Text.unifyBreaks xml.toList)) = some doc ∧
      (((loadManifests dir).run w).1 = .error f ∨ ∃ manifests w₁, (loadManifests dir).Does w manifests w₁ ∧
        ∃ m, (resultsOf doc).mapM (·.attach manifests) = .error m ∧ f = .misfit m) := by
  cases hdoc : Xml.read? (String.ofList (Text.unifyBreaks xml.toList)) with
  | none =>
    have hresults : resultsOfXml (String.ofList (Text.unifyBreaks xml.toList)) = .error .xml := by
      rw [resultsOfXml, hdoc]
    simp only [runReport, hresults]
    simp [ofOutcome, eq_comm]
  | some doc =>
    have hresults : resultsOfXml (String.ofList (Text.unifyBreaks xml.toList)) =
        .ok (resultsOf doc) := by
      rw [resultsOfXml, hdoc]
      rfl
    have hattach (manifests : Manifests) (w₁ : World) : ((ofFit
        ((resultsOf doc).mapM (·.attach manifests)) >>= fun results =>
          (done { results, output := output ++ errors, exitCode := some code } : Script (TestRun String))).run
            w₁).1 = .error f ↔
        ∃ m, (resultsOf doc).mapM (·.attach manifests) = .error m ∧ f = .misfit m := by
      cases (resultsOf doc).mapM (·.attach manifests) with
      | ok results => simp [ofFit, Value.orFault, Except.mapError, ofOutcome]
      | error m => simp [ofFit, Value.orFault, Except.mapError, ofOutcome, eq_comm]
    have hrun : (runReport dir timeout (.exited (some xml) code output errors)) =
        loadManifests dir >>= fun manifests => ofFit ((resultsOf doc).mapM (·.attach manifests)) >>=
          fun results => done { results, output := output ++ errors, exitCode := some code } := by
      rw [runReport, hresults]
      rfl
    rw [hrun, fst_run_bind]
    simp only [hattach]
    simp

/-- A run that stops has one of these reasons. -/
theorem unreported_of_stop (h : ((runTests dir root timeout select).run w).1 = .error f) :
    Unreported dir w f := by
  rcases fst_run_runTests.1 h with hdir | ⟨htests, hreport⟩
  · exact .directory hdir
  · cases hending : w.ending with
    | timedOut =>
      rw [hending] at hreport
      cases hreport
    | missing =>
      rw [hending] at hreport
      cases hreport
    | exited report code output errors =>
      cases report with
      | none =>
        rw [hending] at hreport
        cases hreport
      | some xml =>
        rw [hending, fst_run_runReport] at hreport
        rcases hreport with ⟨hxml, rfl⟩ | ⟨doc, hdoc, hload⟩
        · exact .report htests hending hxml
        · have htells : Tells w.ending doc := ⟨xml, code, output, errors, hending, hdoc⟩
          obtain ⟨files, hfiles, hrun⟩ := exists_manifestFiles htests.1
          rcases hload with hstop | ⟨manifests, w₁, hdoes, m, hattach, rfl⟩
          · rw [hrun] at hstop
            obtain ⟨p, hp, hobstructs⟩ := obstructs_of_manifestsIn hstop
            exact .manifest htests htells ((hfiles p).1 hp) hobstructs
          · obtain ⟨hmanifests, rfl⟩ := Prod.mk.inj (hrun.symm.trans hdoes)
            obtain ⟨r, hr, herror⟩ := exists_error_of_mapM hattach
            refine .result htests htells hdoes hr herror ?_
            refine (failsFor_attach manifests r m herror).imp_right fun hshape => ?_
            obtain ⟨v, hv, hshape⟩ := hshape
            obtain ⟨p, hp, hdata⟩ := dataIn_of_mem_manifestsIn hmanifests (Value.mem_of_lookup? hv)
            exact ⟨p, v, (hfiles p).1 hp, hdata, hshape⟩

/-- Each of the reasons stops the run. -/
theorem stop_of_unreported (h : Unreported dir w f) (root : Path) (timeout : Value)
    (select : List String) : ∃ f', ((runTests dir root timeout select).run w).1 = .error f' := by
  cases h with
  | directory h => exact ⟨f, fst_run_runTests.2 (.inl h)⟩
  | report htests hending h =>
    refine ⟨.xml, fst_run_runTests.2 (.inr ⟨htests, ?_⟩)⟩
    rw [hending]
    exact fst_run_runReport.2 (.inl ⟨h, rfl⟩)
  | manifest htests hdoc hp h =>
    obtain ⟨xml, code, output, errors, hending, hdoc⟩ := hdoc
    obtain ⟨files, hfiles, hrun⟩ := exists_manifestFiles htests.1
    obtain ⟨f', hf'⟩ := manifestsIn_of_obstructs ((hfiles _).2 hp) h
    refine ⟨f', fst_run_runTests.2 (.inr ⟨htests, ?_⟩)⟩
    rw [hending]
    exact fst_run_runReport.2 (.inr ⟨_, hdoc, .inl (by rw [hrun, hf'])⟩)
  | result htests hdoc hmanifests hr h hwhy =>
    obtain ⟨xml, code, output, errors, hending, hdoc⟩ := hdoc
    obtain ⟨m', hm'⟩ := mapM_eq_error.2 ⟨_, hr, _, h⟩
    refine ⟨.misfit m', fst_run_runTests.2 (.inr ⟨htests, ?_⟩)⟩
    rw [hending]
    exact fst_run_runReport.2 (.inr ⟨_, hdoc, .inr ⟨_, _, hmanifests, m', hm', rfl⟩⟩)

theorem not_does_of_unreported (h : Unreported dir w f) :
    ¬∃ run w', (runTests dir root timeout select).Does w run w' := by
  rintro ⟨run, w', hdoes⟩
  obtain ⟨f', hstop⟩ := stop_of_unreported h root timeout select
  rw [hdoes] at hstop
  cases hstop

/-- The results of a report are traced by the manifests that can be read. -/
theorem results_of_runTests {run : TestRun String} {w' : World} {xml output errors : String}
    {code : Int} {doc : Xml.Element} (h : (runTests dir root timeout select).Does w run w')
    (htests : HasTests w dir) (hending : w.ending = .exited (some xml) code output errors)
    (hxml : Xml.read? (String.ofList (Text.unifyBreaks xml.toList)) = some doc) :
    (∃ files ms, (∀ p, p ∈ files ↔ IsManifestFile w dir p ∧ ∃ v, dataIn (replyOf w p) = .ok v) ∧
      manifestsIn (replyOf w) files = .ok ms ∧
        (resultsOf doc).mapM (·.attach ms) = .ok run.results) ∧
      run.errors = [] ∧ run.exitCode = some code := by
  obtain ⟨files, hfiles, hload⟩ := exists_manifestFiles htests.1
  have hreport : ((runReport dir timeout w.ending).run w).1 = .ok run := by
    rw [← fst_run_of_hasTests htests root timeout select, h]
  rw [hending] at hreport
  obtain ⟨results, w₁, hresults, hrest⟩ := does_bind.1 (Prod.ext hreport rfl)
  obtain ⟨ms, w₂, hms, hrest⟩ := does_bind.1 hrest
  obtain ⟨attached, w₃, hattached, hrest⟩ := does_bind.1 hrest
  obtain ⟨rfl, -⟩ := does_pure.1 hrest
  obtain ⟨hresults, rfl⟩ := does_ofOutcome.1 hresults
  obtain ⟨hattached, -⟩ := does_ofFit.1 hattached
  rw [resultsOfXml, hxml] at hresults
  cases hresults
  have hmanifests := manifestsIn_readable (Prod.mk.inj (hload.symm.trans hms)).1
  refine ⟨⟨_, ms, fun p => ?_, hmanifests, hattached⟩, rfl, rfl⟩
  rw [List.mem_filter, hfiles p]
  cases dataIn (replyOf w p) <;> simp [Except.isOk, Except.toBool]

/-- Runs of tests are reported. A run gives a report unless there is one of the reasons against it.
Where there is no good report of the test program, what is reported is red. The results are those of
the program's report, traced by all manifests that can be read, and by no others. -/
theorem run_reported (dir root : Path) (timeout : Value) (select : List String) (w : World) :
    ((∃ run w', (runTests dir root timeout select).Does w run w') ↔ ¬∃ f, Unreported dir w f) ∧
    (∀ f, ((runTests dir root timeout select).run w).1 = .error f → Unreported dir w f) ∧
    ∀ run w', (runTests dir root timeout select).Does w run w' →
      (¬(HasTests w dir ∧ EndsWell w.ending) → run.isGreen = false) ∧
      ∀ doc, HasTests w dir → Tells w.ending doc →
        ∃ files ms, (∀ p, p ∈ files ↔ IsManifestFile w dir p ∧ ∃ v, dataIn (replyOf w p) = .ok v) ∧
          manifestsIn (replyOf w) files = .ok ms ∧
            (resultsOf doc).mapM (·.attach ms) = .ok run.results := by
  refine ⟨⟨?_, ?_⟩, fun f => unreported_of_stop, fun run w' h => ⟨?_, ?_⟩⟩
  · rintro hdoes ⟨f, hf⟩
    exact not_does_of_unreported hf hdoes
  · intro hno
    rcases hrun : (runTests dir root timeout select).run w with ⟨f | run, w'⟩
    · exact absurd ⟨f, unreported_of_stop (congrArg Prod.fst hrun)⟩ hno
    · exact ⟨run, w', hrun⟩
  · intro hbad
    rw [← isGreen_of_runTests h] at hbad
    simpa using hbad
  · rintro doc htests ⟨xml, code, output, errors, hending, hxml⟩
    exact (results_of_runTests h htests hending hxml).1

/-- A directory with one test module and its manifest, and a test program that leaves a report. -/
def leftWith (report : String) (code : Int) (manifest : ByteArray) : World where
  tree := ⟨[(["out"], .dir), (["out", "test_a.py"], .file ⟨#[]⟩),
    (["out", "test_a.json"], .file manifest)]⟩
  ending := .exited (some report) code "" ""

/-- Where its test module is. -/
def testDir : Path := ⟨0, ["out"]⟩

/-- The report of a run in which one test has passed. -/
def onePassed : String :=
  "<testsuite><testcase classname=\"test_a\" name=\"test_one\"/></testsuite>"

/-- The element of its test. -/
def passedCase : Xml.Element :=
  .make "testcase" [("classname", "test_a"), ("name", "test_one")] "" []

theorem tells_onePassed (code : Int) (manifest : ByteArray) :
    Tells (leftWith onePassed code manifest).ending
      (.make "testsuite" [] "" [passedCase]) := by
  refine ⟨onePassed, code, "", "", rfl, ?_⟩
  cbv

theorem hasTests_leftWith (report : String) (code : Int) (manifest : ByteArray) :
    HasTests (leftWith report code manifest) testDir :=
  ⟨rfl, "test_a.py", by decide +kernel, fun h => by cases h⟩

theorem unreported_leftWith {manifest : ByteArray} {f : Fault} (h : Obstructs (.ok manifest) f) :
    Unreported testDir (leftWith onePassed 0 manifest) f := by
  have hfile : IsManifestFile (leftWith onePassed 0 manifest) testDir (testDir.child "test_a.json") :=
    ⟨"test_a.json", by decide +kernel, (fun h => by cases h), rfl⟩
  exact .manifest (hasTests_leftWith ..) (tells_onePassed 0 manifest) hfile h

/-- No report is made of a run that leaves an empty report, nor of one in which all tests have passed
and the manifest is a list or no text. -/
theorem runs_without_report :
    (¬∃ run w', (runTests testDir here (.int 120) []).Does
      (leftWith "" 0 (Text.encode "\x7b\x7d")) run w') ∧
    (¬∃ run w', (runTests testDir here (.int 120) []).Does
      (leftWith onePassed 0 (Text.encode "[]")) run w') ∧
    ¬∃ run w', (runTests testDir here (.int 120) []).Does (leftWith onePassed 0 ⟨#[0xff]⟩) run w' := by
  have hlist : misfit? (manifestIn (testDir.child "test_a.json") (.ok (Text.encode "[]"))) =
      some .noMember := by decide +kernel
  have hbyte : (Text.decode ⟨#[0xff]⟩).toOption = none := by decide +kernel
  refine ⟨not_does_of_unreported (.report (hasTests_leftWith ..) rfl ?_),
    not_does_of_unreported (unreported_leftWith (f := .misfit .noMember) ?_), ?_⟩
  · exact Option.isNone_iff_eq_none.1 (by decide +kernel)
  · exact manifestIn_eq_error.1 (eq_error_of_misfit? hlist)
  · cases hdecode : Text.decode ⟨#[0xff]⟩ with
    | ok text =>
      rw [hdecode] at hbyte
      cases hbyte
    | error e => exact not_does_of_unreported (unreported_leftWith (.encoding rfl hdecode))

end Runs
end Project
end Acceptance

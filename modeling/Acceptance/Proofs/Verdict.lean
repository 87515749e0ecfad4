import Acceptance.Project.Run
import Acceptance.Proofs.Containment
/-!
The verdict on a project. A run is green just if the registry is read, each spec is read, bound and
alone with its name, there are tests, and the test program tells that all of them have passed. It is
a fault of the project just if registry or specs are at fault.
-/
namespace Acceptance

open Script

variable {name : String} {specs : List Project.Claimant} {report : Report String Nat}

/-! Test results. -/

namespace Xml.Element

/-- The element of a test that has passed: nothing in it tells otherwise. -/
def Passed (e : Element) : Prop := ∀ c ∈ e.children, c.name ∉ ["failure", "error", "skipped"]

/-- The report has tests, and all of them have passed. -/
def AllPassed (doc : Element) : Prop :=
  (∃ e ∈ doc.all, e.name = "testcase") ∧ ∀ e ∈ doc.all, e.name = "testcase" → e.Passed

theorem child?_eq_none {e : Element} : e.child? name = none ↔ ∀ c ∈ e.children, c.name ≠ name := by
  simp [child?]

theorem passed_iff {e : Element} : e.Passed ↔
    e.child? "failure" = none ∧ e.child? "error" = none ∧ e.child? "skipped" = none := by
  simp only [Passed, child?_eq_none, List.mem_cons, List.not_mem_nil, or_false, not_or]
  constructor
  · exact fun h => ⟨fun c hc => (h c hc).1, fun c hc => (h c hc).2.1, fun c hc => (h c hc).2.2⟩
  · exact fun h c hc => ⟨h.1 c hc, h.2.1 c hc, h.2.2 c hc⟩

end Xml.Element

variable {manifests : Manifests}

namespace TestResult

theorem status_ofCase (e : Xml.Element) : (ofCase e).status = .passed ↔ e.Passed := by
  rw [Xml.Element.passed_iff, ofCase]
  simp only [statusElements, List.findSome?_cons, List.findSome?_nil]
  cases e.child? "failure" <;> cases e.child? "error" <;> cases e.child? "skipped" <;> simp

/-- What a manifest adds to a result is neither which test it is of nor how the test ended. -/
theorem kept_of_attach {r r' : TestResult String} (h : r.attach manifests = .ok r') :
    r'.name = r.name ∧ r'.file = r.file ∧ r'.status = r.status := by
  unfold attach at h
  split at h
  · cases h
    exact ⟨rfl, rfl, rfl⟩
  · cases h
    exact ⟨rfl, rfl, rfl⟩
  · obtain ⟨source, -, h⟩ := bind_eq_ok.1 h
    obtain ⟨tests, -, h⟩ := bind_eq_ok.1 h
    obtain ⟨entry, -, h⟩ := bind_eq_ok.1 h
    split at h
    · cases h
      exact ⟨rfl, rfl, rfl⟩
    · cases h
      exact ⟨rfl, rfl, rfl⟩
    · obtain ⟨id, -, h⟩ := bind_eq_ok.1 h
      obtain ⟨title, -, h⟩ := bind_eq_ok.1 h
      dsimp only at h
      split at h
      · obtain ⟨statement, -, h⟩ := bind_eq_ok.1 h
        cases h
        exact ⟨rfl, rfl, rfl⟩
      · cases h
        exact ⟨rfl, rfl, rfl⟩

end TestResult

theorem World.ending_update (w : World) (p : Path) (target : Option Path) (r : Except OsCause Tree) :
    (w.update p target r).2.ending = w.ending := by
  unfold update
  split <;> rfl

/-- How the test program ends is settled from the start. -/
theorem Script.ending_run {α : Type} (s : Script α) (w : World) : (s.run w).2.ending = w.ending := by
  induction s generalizing w with
  | done a => rfl
  | stop f => rfl
  | call op next ih =>
    rw [run_call, ih]
    cases op with
    | stat p =>
      change (w.stat p).2.ending = w.ending
      unfold World.stat
      split
      · rfl
      · rw [World.look_snd]
    | read p => exact congrArg World.ending (w.look_snd p _)
    | makeDir p => exact w.ending_update ..
    | write p bytes => exact w.ending_update ..
    | move p q => exact w.ending_update ..
    | remove p => exact w.ending_update ..
    | _ => rfl

theorem Script.does_of_toOption {α : Type} {s : Script α} {w : World} {a : α}
    (h : (s.run w).1.toOption = some a) : s.Does w a (s.run w).2 := Prod.ext (eq_ok_of_toOption h) rfl

namespace Project

/-! Test modules. -/

/-- There is a test module in the directory. -/
def HasTests (w : World) (dir : Path) : Prop :=
  (isDir dir).Does w true w ∧
    ∃ name, fitsName "test_" ".py" name = true ∧ w.tree.get? (dir.place ++ [name]) ≠ none

variable {dir root : Path} {w w' : World}

theorem does_childrenNamed {start ending : String} {ps : List Path}
    (hstat : w.tree.stat dir = .ok (some .dir)) (h : (childrenNamed start ending dir).Does w ps w') :
    w' = w ∧ (ps ≠ [] ↔
      ∃ name, fitsName start ending name = true ∧ w.tree.get? (dir.place ++ [name]) ≠ none) := by
  have hmem (p : Path) := mem_childrenNamed hstat h (q := p)
  refine ⟨?_, fun hne => ?_, fun hname => ?_⟩
  · obtain ⟨found, w₁, hfound, h⟩ := does_bind.1 h
    obtain ⟨rfl, rfl⟩ := does_listBelow.1 hfound
    exact (does_pure.1 h).2.symm
  · obtain ⟨p, hp⟩ := List.exists_mem_of_ne_nil _ hne
    obtain ⟨name, hfits, hget, -⟩ := (hmem p).1 hp
    exact ⟨name, hfits, hget⟩
  · obtain ⟨name, hfits, hget⟩ := hname
    exact List.ne_nil_of_mem ((hmem _).2 ⟨name, hfits, hget, rfl⟩)

theorem does_testModules {modules : List Path} (h : (testModules dir).Does w modules w') :
    w' = w ∧ (modules ≠ [] ↔ HasTests w dir) := by
  obtain ⟨b, w₁, hdir, h⟩ := does_bind.1 h
  obtain ⟨rfl, -⟩ := does_isDir.1 hdir
  cases b with
  | false =>
    obtain ⟨rfl, rfl⟩ := does_pure.1 h
    refine ⟨rfl, by simp, fun htests => ?_⟩
    cases (hdir.unique htests.1).1
  | true =>
    obtain ⟨-, -, hstat⟩ := does_isDir_true.1 hdir
    obtain ⟨rfl, hne⟩ := does_childrenNamed hstat h
    exact ⟨rfl, hne.trans (and_iff_right hdir).symm⟩

/-! The test program. -/

/-- The program has ended with a report in which all tests have passed. -/
def EndsWell (ending : Ending) : Prop :=
  ∃ xml code output errors doc, ending = .exited (some xml) code output errors ∧
    Xml.read? (String.ofList (Text.unifyBreaks xml.toList)) = some doc ∧ doc.AllPassed

/-- A list of results read from a report is green just if all tests of the report have passed. -/
theorem isGreen_of_attach {xml : String} {results attached : List (TestResult String)} {code : Int}
    {output errors : String}
    (hresults : resultsOfXml (String.ofList (Text.unifyBreaks xml.toList)) = .ok results)
    (hattached : results.mapM (·.attach manifests) = .ok attached) (shown : String)
    (exitCode : Option Int) :
    ({ results := attached, output := shown, exitCode } : TestRun String).isGreen = true ↔
      EndsWell (.exited (some xml) code output errors) := by
  have hstatus : attached.map (·.status) = results.map (·.status) :=
    map_eq_of_mapM (fun _ _ h => (TestResult.kept_of_attach h).2.2) hattached
  have hgreen : ({ results := attached, output := shown, exitCode } : TestRun String).isGreen = true ↔
      attached.map (·.status) ≠ [] ∧ ∀ status ∈ attached.map (·.status), status = .passed := by
    simp [TestRun.isGreen]
  rw [hgreen, hstatus]
  unfold resultsOfXml at hresults
  split at hresults
  · next doc hdoc =>
    cases hresults
    have hpassed : doc.AllPassed ↔ (doc.all.filter (·.name == "testcase")) ≠ [] ∧
        ∀ e ∈ doc.all.filter (·.name == "testcase"), e.Passed := by
      simp [Xml.Element.AllPassed]
    have hends : EndsWell (.exited (some xml) code output errors) ↔ doc.AllPassed := by
      constructor
      · rintro ⟨_, _, _, _, doc', heq, hdoc', hall⟩
        cases heq
        cases hdoc.symm.trans hdoc'
        exact hall
      · exact fun hall => ⟨xml, code, output, errors, doc, rfl, hdoc, hall⟩
    rw [hends, hpassed]
    simp only [ne_eq, List.map_eq_nil_iff, List.forall_mem_map, TestResult.status_ofCase]
  · cases hresults

variable {timeout : Value} {run : TestRun String} {select : List String}
  {file : FileReport String Nat} {owned : List Claimant} {paths : List Path}

theorem isGreen_of_runReport {ending : Ending} (h : (runReport dir timeout ending).Does w run w') :
    run.isGreen = true ↔ EndsWell ending := by
  cases ending with
  | timedOut =>
    obtain ⟨rfl, -⟩ := does_pure.1 h
    simp [TestRun.isGreen, EndsWell]
  | missing =>
    obtain ⟨rfl, -⟩ := does_pure.1 h
    simp [TestRun.isGreen, EndsWell]
  | exited report code output errors =>
    cases report with
    | none =>
      obtain ⟨rfl, -⟩ := does_pure.1 h
      simp [TestRun.isGreen, EndsWell]
    | some xml =>
      obtain ⟨results, w₁, hresults, h⟩ := does_bind.1 h
      obtain ⟨manifests, w₂, -, h⟩ := does_bind.1 h
      obtain ⟨attached, w₃, hattached, h⟩ := does_bind.1 h
      obtain ⟨rfl, -⟩ := does_pure.1 h
      obtain ⟨hresults, -⟩ := does_ofOutcome.1 hresults
      obtain ⟨hattached, -⟩ := does_ofFit.1 hattached
      exact isGreen_of_attach hresults hattached _ _

theorem isGreen_of_runTests (h : (runTests dir root timeout select).Does w run w') :
    run.isGreen = true ↔ HasTests w dir ∧ EndsWell w.ending := by
  obtain ⟨modules, w₁, hmodules, hrest⟩ := does_bind.1 h
  obtain ⟨rfl, htests⟩ := does_testModules hmodules
  split at hrest
  · next hempty =>
    obtain ⟨rfl, -⟩ := does_pure.1 hrest
    have hnone : ¬HasTests w₁ dir := fun hhas => htests.2 hhas (List.isEmpty_iff.1 hempty)
    simp [TestRun.isGreen, hnone]
  · next hne =>
    have hhas : HasTests w₁ dir := htests.1 (by simpa using hne)
    obtain ⟨ending, w₂, hending, hreport⟩ := does_bind.1 hrest
    obtain ⟨rfl, -⟩ := Prod.mk.inj (does_ask.1 hending)
    rw [isGreen_of_runReport hreport, and_iff_right hhas]

/-! Specs. -/

/-- The spec is read, and each of its statements is bound to one operation. -/
def Resolves (root : Path) (r : Registry) (w : World) (path : Path) : Prop :=
  ∃ bytes spec, replyOf w path = .ok bytes ∧ specOfBytes (specName root path) bytes = .ok spec ∧
    ∀ s ∈ spec.scenarios, ∀ t ∈ s.steps, ∃ b, r.resolve t.kind t.text = .ok (.resolved b)

/-- All specs below a directory resolve, and no two of them have the same slug. -/
def SpecsResolve (root dir : Path) (r : Registry) (w : World) : Prop :=
  ∃ paths, (specFiles dir).Does w paths w ∧ (∀ p ∈ paths, Resolves root r w p) ∧
    paths.Pairwise fun p q => specSlug dir p ≠ specSlug dir q

variable {r : Registry} {settings : Settings}

theorem resolve_normalize (r : Registry) (kind : Kind) (statement : String) :
    r.resolve kind (Text.normalize statement) = r.resolve kind statement := by
  have hsame : Text.normalize (Text.normalize statement) = Text.normalize statement := by
    rw [Text.normalize, Text.normalize, String.toList_ofList, Text.respace_respace]
  rw [Registry.resolve, hsame, Registry.resolve]

theorem isResolved_of_resolve {p d : Plan} (h : p.resolve r = .ok d) : d.isResolved = true ↔
    ∀ s ∈ p.scenarios, ∀ t ∈ s.steps, ∃ b, r.resolve t.kind t.statement = .ok (.resolved b) := by
  obtain ⟨scenarios, hscenarios, h⟩ := bind_eq_ok.1 h
  cases h
  rw [Plan.Document.isResolved, List.all_eq_true]
  refine forall_mem_mapM_iff (fun s₀ s hs => ?_) hscenarios
  obtain ⟨steps, hsteps, hs⟩ := bind_eq_ok.1 hs
  cases hs
  rw [Plan.Scenario.isResolved, List.all_eq_true]
  refine forall_mem_mapM_iff (fun t₀ t ht => ?_) hsteps
  obtain ⟨finding, hfinding, ht⟩ := bind_eq_ok.1 ht
  cases ht
  rw [hfinding]
  cases finding <;> simp [Plan.Step.isResolved, Resolution.isResolved]

theorem problems_eq_nil_iff (d : Plan) : d.problems = [] ↔ d.isResolved = true := by
  rw [Plan.Document.problems, List.flatMap_eq_nil_iff, Plan.Document.isResolved, List.all_eq_true]
  simp only [Plan.problems_eq_nil]

theorem planOf_eq_ok {reply : Except FileError ByteArray} {plan : Plan} :
    planOf name reply = .ok plan ↔ ∃ bytes spec, reply = .ok bytes ∧
      specOfBytes name bytes = .ok spec ∧ Plan.ofSpec spec = .ok plan := by
  constructor
  · intro h
    obtain ⟨spec, hspec, hplan⟩ := bind_eq_ok.1 h
    rcases reply with (e | e) | bytes
    · cases hspec
    · cases hspec
    · exact ⟨bytes, spec, rfl, hspec, eq_ok_of_mapError hplan⟩
  · rintro ⟨bytes, spec, rfl, hspec, hplan⟩
    refine bind_eq_ok.2 ⟨spec, hspec, ?_⟩
    rw [hplan]
    rfl

/-- A plan can be made of every spec that is read. -/
theorem ofSpec_of_specOfBytes {bytes : ByteArray} {spec : Spec}
    (h : specOfBytes name bytes = .ok spec) : Plan.ofSpec spec =
      .ok ⟨spec.path, Text.normalize spec.description, spec.scenarios.map Plan.ofScenario⟩ := by
  unfold specOfBytes at h
  split at h
  · exact Spec.ofSpec_of_legible (Spec.legible_of_parse h)
  · cases h
  · cases h

/-- A spec is told of no problem just if all its statements are bound. -/
theorem errors_of_workOf {path : Path} {slug : String} {work : Work}
    (h : workOf r true slug (specName root path) (planOf (specName root path) (replyOf w path)) =
      .ok (file, work)) : file.errors = [] ↔ Resolves root r w path := by
  cases hplan : planOf (specName root path) (replyOf w path) with
  | error f =>
    rw [hplan] at h
    -- A spec that cannot be read is reported as a problem of its own.
    have hno : ¬Resolves root r w path := by
      rintro ⟨bytes, spec, hreply, hspec, -⟩
      cases hplan.symm.trans (planOf_eq_ok.2 ⟨bytes, spec, hreply, hspec, ofSpec_of_specOfBytes hspec⟩)
    cases f with
    | problem p =>
      cases h
      simp [hno]
    | _ => cases h
  | ok plan =>
    rw [hplan] at h
    obtain ⟨d, text, hd, -, compiled, hcompiled, hmade⟩ := workOf_eq_ok.1 h
    obtain ⟨rfl, -⟩ := Prod.mk.inj hmade
    have herrors : compiled.report.errors = d.problems := by
      rcases emitted_cases hcompiled with rfl | ⟨m, -, rfl⟩ <;> rfl
    obtain ⟨bytes, spec, hreply, hspec, hof⟩ := planOf_eq_ok.1 hplan
    obtain rfl := Except.ok.inj (hof.symm.trans (ofSpec_of_specOfBytes hspec))
    rw [herrors, problems_eq_nil_iff, isResolved_of_resolve hd]
    constructor
    · intro hall
      refine ⟨bytes, spec, hreply, hspec, fun s hs t ht => ?_⟩
      have hstep : Plan.ofStep t ∈ (Plan.ofScenario s).steps := List.mem_map_of_mem ht
      rw [← resolve_normalize]
      exact hall (Plan.ofScenario s) (List.mem_map_of_mem hs) (Plan.ofStep t) hstep
    · rintro ⟨bytes', spec', hreply', hspec', hall⟩
      obtain rfl := Except.ok.inj (hreply.symm.trans hreply')
      obtain rfl := Except.ok.inj (hspec.symm.trans hspec')
      intro s' hs' t' ht'
      obtain ⟨s, hs, rfl⟩ := List.mem_map.1 hs'
      obtain ⟨t, ht, rfl⟩ : ∃ t ∈ s.steps, Plan.ofStep t = t' := List.mem_map.1 ht'
      obtain ⟨b, hb⟩ := hall s hs t ht
      exact ⟨b, (resolve_normalize r t.kind t.text).trans hb⟩

theorem owners_of_pairwise (h : (owned ++ specs).Pairwise fun c d => c.slug ≠ d.slug) :
    owners owned specs = owned ++ specs := by
  induction specs generalizing owned with
  | nil => rw [owners, List.append_nil]
  | cons d specs ih =>
    have hfree : ¬owned.any (·.slug = d.slug) = true := by
      intro htaken
      obtain ⟨o, ho, hslug⟩ := List.any_eq_true.1 htaken
      exact (List.pairwise_append.1 h).2.2 o ho d List.mem_cons_self (of_decide_eq_true hslug)
    rw [List.append_cons] at h
    rw [owners, if_neg hfree, ih h, List.append_assoc, List.singleton_append]

/-- No spec is told that its name is taken just if all names differ. -/
theorem collisions_eq_nil (hnodup : specs.Nodup) :
    specs.filterMap (collision? root (owners [] specs)) = [] ↔
      specs.Pairwise fun c d => c.slug ≠ d.slug := by
  rw [List.filterMap_eq_nil_iff]
  constructor
  · intro h
    -- No collision is reported, so every spec is the owner of its slug, and owners differ in slugs.
    have howned : ∀ c ∈ specs, c ∈ owners [] specs := fun c hc =>
      mem_owners_of_collision? hc (h c hc)
    refine hnodup.pairwise_of_forall_ne fun c hc d hd hne hslug => hne ?_
    have hslugs : ((owners [] specs).map (·.slug)).Nodup := nodup_owners List.nodup_nil
    exact List.inj_on_of_nodup_map hslugs (howned c hc) (howned d hd) hslug
  · intro h c hc
    rw [owners_of_pairwise (by rwa [List.nil_append]), List.nil_append, collision?]
    split
    · rfl
    · next o hfind =>
      have hslug : o.slug = c.slug := by simpa using List.find?_some hfind
      have hslugs : (specs.map (·.slug)).Nodup := List.pairwise_map.2 h
      have hmem := List.mem_of_find?_eq_some hfind
      rw [if_pos (List.inj_on_of_nodup_map hslugs hmem hc hslug)]

/-! The verdict. -/

theorem exists_places {path : Path} (hregistry : Settings.place root settings.registry = .ok path)
    (h : (compileAll root settings r true).Does w report w') :
    ∃ (_ : Places root settings) (together : Bool), severalWorkers settings = .ok together := by
  obtain ⟨specs, w₁, hspecs, h⟩ := does_bind.1 h
  obtain ⟨paths, w₂, -, h⟩ := does_bind.1 h
  obtain ⟨claims, w₃, -, h⟩ := does_bind.1 h
  obtain ⟨together, w₄, htogether, h⟩ := does_bind.1 h
  extract_lets owned rest at h
  obtain ⟨compiled, w₅, h⟩ : ∃ compiled w₅, (rest compiled).Does w₅ report w' := by
    split at h
    · obtain ⟨compiled, w₅, -, h⟩ := does_bind.1 h
      exact ⟨compiled, w₅, h⟩
    · obtain ⟨compiled, w₅, -, h⟩ := does_bind.1 h
      exact ⟨compiled, w₅, h⟩
  obtain ⟨tests, w₆, htests, h⟩ := does_bind.1 h
  obtain ⟨pruned, w₇, -, h⟩ := does_bind.1 h
  obtain ⟨plans, w₈, hplans, h⟩ := does_bind.1 h
  exact ⟨⟨specs, plans, tests, path, (does_ofFit.1 hspecs).1, (does_ofFit.1 hplans).1,
    (does_ofFit.1 htests).1, hregistry⟩, together, (does_ofFit.1 htogether).1⟩

theorem slugs_of_claimants (h : claimants dir paths = .ok specs) :
    specs.map (fun c => Except.ok c.slug) = paths.map (specSlug dir) := by
  refine map_eq_of_mapM (fun path c hc => ?_) h
  obtain ⟨slug, hslug, hc⟩ := bind_eq_ok.1 hc
  cases hc
  exact hslug.symm

theorem paths_of_claimants (h : claimants dir paths = .ok specs) : specs.map (·.path) = paths := by
  rw [← List.map_id paths]
  refine map_eq_of_mapM (fun path c hc => ?_) h
  obtain ⟨slug, -, hc⟩ := bind_eq_ok.1 hc
  cases hc
  rfl

theorem errors_ne_nil_of_collision? {c : Claimant} (h : collision? root owned c = some file) :
    file.errors ≠ [] := by
  unfold collision? at h
  split at h
  · cases h
  · split at h
    · cases h
    · cases h
      simp

/-- All specs together have no problem just if all of them resolve under names of their own. -/
theorem problems_of_compileAll (s : Places root settings) {together : Bool}
    (hworkers : severalWorkers settings = .ok together) (hw : w.tree.Sound)
    (h : (compileAll root settings r true).Does w report w') :
    report.errors = [] ∧ (report.problems = [] ↔ SpecsResolve root s.specs r w) := by
  obtain ⟨paths, specs, compiled, hpaths, hspecs, hfiles, herrors, hcompiled⟩ :=
    forall₂_workOf s hworkers hw h
  -- The report is that of the owners followed by that of the collisions: the first part is free of
  -- problems when the owners resolve, the second when there is nobody but owners.
  have hresolve : (∀ file ∈ compiled, file.errors = []) ↔
      ∀ c ∈ owners [] specs, Resolves root r w c.path := by
    refine forall_mem_iff_of_forall₂ (hcompiled.imp fun c file hmade => ?_)
    obtain ⟨work, hwork⟩ := hmade
    exact errors_of_workOf hwork
  have hsame : specs.map (·.path) = paths := paths_of_claimants hspecs
  have hnodup : specs.Nodup := .of_map _ (hsame ▸ nodup_specFiles hw hpaths)
  have hcollisions : (∀ file ∈ specs.filterMap (collision? root (owners [] specs)),
      file.errors = []) ↔ specs.Pairwise fun c d => c.slug ≠ d.slug := by
    have hnone : specs.filterMap (collision? root (owners [] specs)) = [] ↔ _ :=
      collisions_eq_nil hnodup
    rw [← hnone, List.eq_nil_iff_forall_not_mem]
    refine forall₂_congr fun file hfile => ?_
    obtain ⟨c, -, hc⟩ := List.mem_filterMap.1 hfile
    simpa using errors_ne_nil_of_collision? hc
  have hslugs : (specs.Pairwise fun c d => c.slug ≠ d.slug) ↔
      paths.Pairwise fun p q => specSlug s.specs p ≠ specSlug s.specs q := by
    have hpaths : (paths.Pairwise fun p q => specSlug s.specs p ≠ specSlug s.specs q) ↔
        (paths.map (specSlug s.specs)).Pairwise (· ≠ ·) := List.pairwise_map.symm
    rw [hpaths, ← slugs_of_claimants hspecs, List.pairwise_map]
    simp
  have hproblems : report.problems = [] ↔ (∀ c ∈ owners [] specs, Resolves root r w c.path) ∧
      specs.Pairwise fun c d => c.slug ≠ d.slug := by
    rw [← hresolve, ← hcollisions, ← List.forall_mem_append, ← hfiles, Report.problems, herrors,
      List.nil_append, List.flatMap_eq_nil_iff]
  refine ⟨herrors, hproblems.trans ⟨?_, ?_⟩⟩
  · rintro ⟨hall, hdistinct⟩
    rw [owners_of_pairwise (by rwa [List.nil_append]), List.nil_append] at hall
    refine ⟨paths, hpaths, ?_, hslugs.1 hdistinct⟩
    rw [← hsame]
    exact List.forall_mem_map.2 hall
  · rintro ⟨paths', hpaths', hall, hdistinct⟩
    obtain ⟨rfl, -⟩ := hpaths.unique hpaths'
    refine ⟨fun c hc => ?_, hslugs.2 hdistinct⟩
    have hmem := (mem_of_mem_owners hc).resolve_left (by simp)
    exact hall c.path (hsame ▸ List.mem_map_of_mem hmem)

/-- The registry of the project is read. -/
def Loads (root : Path) (settings : Settings) (w : World) (r : Registry) : Prop :=
  ∃ path, Settings.place root settings.registry = .ok path ∧ (readRegistry path).Does w r w

/-- The registry is read, and all specs resolve against it under names of their own. -/
def InOrder (root : Path) (settings : Settings) (w : World) : Prop :=
  ∃ r dir, Loads root settings w r ∧ Settings.place root settings.specsDir = .ok dir ∧
    SpecsResolve root dir r w

/-- Once the project is compiled there is a test module in its directory for them. -/
def LeavesTests (root : Path) (settings : Settings) (w : World) : Prop :=
  ∃ dir, Settings.place root settings.outputDir = .ok dir ∧
    HasTests ((compile root settings true).run w).2 dir

theorem Loads.unique {r' : Registry} (h : Loads root settings w r) (h' : Loads root settings w r') :
    r = r' := by
  obtain ⟨path, hpath, hread⟩ := h
  obtain ⟨path', hpath', hread'⟩ := h'
  obtain rfl := Except.ok.inj (hpath.symm.trans hpath')
  exact (hread.unique hread').1

/-- Compiling ends at a registry that is at fault, or goes on with the specs. -/
theorem does_compile_cases {emit : Bool} (h : (compile root settings emit).Does w report w') :
    (∃ p, report = { errors := [p] } ∧ ∀ r, ¬Loads root settings w r) ∨
      ∃ r, Loads root settings w r ∧ (compileAll root settings r emit).Does w report w' := by
  obtain ⟨path, w₁, hplace, h⟩ := does_bind.1 h
  obtain ⟨hpath, rfl⟩ := does_ofFit.1 hplace
  obtain ⟨result, w₂, hresult, h⟩ := does_bind.1 h
  have hrun := does_attempt.1 hresult
  cases result with
  | ok r =>
    obtain ⟨-, rfl⟩ := does_readRegistry.1 hrun
    exact .inr ⟨r, ⟨path, hpath, hrun⟩, h⟩
  | error f =>
    cases f with
    | problem p =>
      obtain ⟨rfl, -⟩ := does_pure.1 h
      refine .inl ⟨p, rfl, ?_⟩
      rintro r ⟨path', hpath', hread⟩
      obtain rfl := Except.ok.inj (hpath.symm.trans hpath')
      cases hrun.symm.trans hread
    | _ => exact absurd h not_does_stop

/-- Registry and specs are in order just if compiling tells of no problem. -/
theorem inOrder_iff_problems (hw : w.tree.Sound)
    (h : (compile root settings true).Does w report w') :
    InOrder root settings w ↔ report.problems = [] := by
  rcases does_compile_cases h with ⟨p, rfl, hno⟩ | ⟨r, hloads, hall⟩
  · refine ⟨?_, fun hproblems => by simp [Report.problems] at hproblems⟩
    rintro ⟨r, dir, hloads, -⟩
    exact absurd hloads (hno r)
  · obtain ⟨path, hpath, -⟩ := id hloads
    obtain ⟨s, together, hworkers⟩ := exists_places hpath hall
    rw [(problems_of_compileAll s hworkers hw hall).2]
    constructor
    · rintro ⟨r', dir, hloads', hdir, hspecs⟩
      obtain rfl := hloads.unique hloads'
      obtain rfl := Except.ok.inj (s.specs_eq.symm.trans hdir)
      exact hspecs
    · exact fun hspecs => ⟨r, s.specs, hloads, s.specs_eq, hspecs⟩

/-- A run tells of the problems that compiling met, and without any it runs the tests. -/
theorem does_run (h : (Project.run root settings select).Does w report w') :
    ∃ compiled w₁, (compile root settings true).Does w compiled w₁ ∧
      report.problems = compiled.problems ∧ (compiled.problems = [] →
        ∃ dir run w₂, Settings.place root settings.outputDir = .ok dir ∧
          (runTests dir root settings.timeout select).Does w₁ run w₂ ∧ report.run = some run) := by
  obtain ⟨compiled, w₁, hcompile, hrest⟩ := does_bind.1 h
  refine ⟨compiled, w₁, hcompile, ?_⟩
  split at hrest
  · next hregistry =>
    obtain ⟨rfl, -⟩ := does_pure.1 hrest
    refine ⟨rfl, fun hproblems => ?_⟩
    rw [(List.append_eq_nil_iff.1 hproblems).1] at hregistry
    cases hregistry
  · obtain ⟨dir, w₂, hdir, hrest⟩ := does_bind.1 hrest
    obtain ⟨hplace, rfl⟩ := does_ofFit.1 hdir
    obtain ⟨run, w₃, hrun, hrest⟩ := does_bind.1 hrest
    obtain ⟨rfl, -⟩ := does_pure.1 hrest
    exact ⟨rfl, fun _ => ⟨dir, run, w₃, hplace, hrun, rfl⟩⟩

/-- Green means that everything has passed: the exit code of a run is 0 just if the registry is read,
all specs resolve under names of their own, there are tests, and the test program has ended with a
report in which all of them have passed. It is 2 just if registry or specs are at fault. -/
theorem exitCode_iff {root : Path} {settings : Settings} {select : List String} {w w' : World}
    (hw : w.tree.Sound) {report : Report String Nat}
    (h : (Project.run root settings select).Does w report w') :
    (report.exitCode = 0 ↔
      InOrder root settings w ∧ LeavesTests root settings w ∧ EndsWell w.ending) ∧
    (report.exitCode = 2 ↔ ¬InOrder root settings w) ∧
    (report.exitCode = 1 ↔
      InOrder root settings w ∧ ¬(LeavesTests root settings w ∧ EndsWell w.ending)) := by
  obtain ⟨compiled, w₁, hcompile, hproblems, htests⟩ := does_run h
  rw [inOrder_iff_problems hw hcompile]
  by_cases hnone : compiled.problems = []
  · obtain ⟨dir, run, w₂, hdir, hrun, hreport⟩ := htests hnone
    have hw₁ : ((compile root settings true).run w).2 = w₁ := congrArg Prod.snd hcompile
    have hgreen : run.isGreen = true ↔ LeavesTests root settings w ∧ EndsWell w.ending := by
      rw [isGreen_of_runTests hrun, LeavesTests, hw₁, ← ending_run (compile root settings true) w, hw₁]
      refine and_congr_left fun _ => ⟨fun hhas => ⟨dir, hdir, hhas⟩, ?_⟩
      rintro ⟨dir', hdir', hhas⟩
      obtain rfl := Except.ok.inj (hdir.symm.trans hdir')
      exact hhas
    have hcode : report.exitCode = if run.isGreen then 0 else 1 := by
      simp [Report.exitCode, hproblems, hnone, hreport]
    rw [hcode, ← hgreen]
    cases run.isGreen <;> simp [hnone]
  · have hcode : report.exitCode = 2 := by simp [Report.exitCode, hproblems, hnone]
    simp [hcode, hnone]

/-- A project without specs, whose only test was written by hand and takes too long. -/
def handTested : World where
  tree := ⟨[(["specs"], .dir), (["specs", "operations.yaml"], .file (Text.encode tallyText)),
    ([".gwt"], .dir), ([".gwt", "generated"], .dir),
    ([".gwt", "generated", "test_hand.py"], .file (Text.encode "def test_one(): pass\n"))]⟩
  ending := .timedOut

theorem exitCode_iff_handTested : handTested.tree.Sound ∧ ∃ report w',
    (Project.run here {} []).Does handTested report w' ∧ report.exitCode = 1 ∧
      InOrder here {} handTested ∧
        ¬(LeavesTests here {} handTested ∧ EndsWell handTested.ending) := by
  have hsound : handTested.tree.Sound :=
    ⟨by simp [handTested], by simp [handTested], by simp [handTested, Tree.get?]⟩
  have hcode : ((Project.run here {} []).run handTested).1.toOption.map (·.exitCode) = some 1 := by
    decide +kernel
  obtain ⟨report, hreport, hcode⟩ := Option.map_eq_some_iff.1 hcode
  have hdoes := does_of_toOption hreport
  exact ⟨hsound, report, _, hdoes, hcode, (exitCode_iff hsound hdoes).2.2.1 hcode⟩

end Project

end Acceptance

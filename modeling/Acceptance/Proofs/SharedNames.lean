import Acceptance.Proofs.ManifestText
import Acceptance.Proofs.Removals
/-!
Specs that share files. A spec is told that its name is taken if its slug is, but where plans and
tests have one directory the manifest of a spec can have the name of the plan of another. All other
files are apart. So what is written for a spec is there in the end, unless another spec or a module
that is left over has such a name.
-/
namespace Acceptance.Project

open Script

variable {root : Path} {settings : Settings} {s : Places root settings} {part : Part}
  {slug slug' : String} {keep : List String} {w w' : World} {m : Location} {bytes : ByteArray}

namespace Places

/-- Two specs share a file just if one has the plan that the other has for its manifest. -/
theorem exists_place_eq_iff (hne : slug ≠ slug') :
    (∃ part part', (s.path part slug).place = (s.path part' slug').place) ↔
      s.plans.place = s.tests.place ∧ (slug = "test_" ++ slug' ∨ slug' = "test_" ++ slug) := by
  constructor
  · intro ⟨part, part', h⟩
    obtain ⟨hdir, hname⟩ := place_path_eq_iff.1 h
    rcases Part.file_eq_iff.1 hname with ⟨-, hslug⟩ | ⟨rfl, rfl, hslug⟩ | ⟨rfl, rfl, hslug⟩
    · exact absurd hslug hne
    · exact ⟨hdir, .inl hslug⟩
    · exact ⟨hdir.symm, .inr hslug⟩
  · intro ⟨hdir, hslug⟩
    rcases hslug with hslug | hslug
    · exact ⟨.plan, .manifest, place_path_eq_iff.2 ⟨hdir, Part.plan_file_eq_iff.2 hslug⟩⟩
    · exact ⟨.manifest, .plan,
        place_path_eq_iff.2 ⟨hdir.symm, (Part.plan_file_eq_iff.2 hslug).symm⟩⟩

/-- No other spec shares a file with this one, and no module is left over that would take its plan
along as a manifest. -/
structure Alone (s : Places root settings) (t : Tree) (slugs : List String) (slug : String) :
    Prop where
  specs : ∀ slug' ∈ slugs, slug ≠ "test_" ++ slug' ∧ slug' ≠ "test_" ++ slug
  modules : ∀ slug' code, slug = "test_" ++ slug' →
    t.file? (s.path .tests slug').place = some code → ¬IsTestBytes code

theorem not_own_path (hne : slug ≠ slug')
    (h : s.plans.place = s.tests.place → slug ≠ "test_" ++ slug' ∧ slug' ≠ "test_" ++ slug) :
    ¬s.Own slug' (s.path part slug).place := by
  intro ⟨part', hm⟩
  rcases hm with hm | hm
  · obtain ⟨hdir, hslug⟩ := (exists_place_eq_iff hne).1 ⟨part, part', hm⟩
    exact hslug.elim (h hdir).1 (h hdir).2
  · exact draftPlace_ne hm.symm

end Places

open Places

/-! What is written and kept. -/

theorem file?_of_work {work : Work} (hmarked : work.Marked) (h : (work.script s slug).Does w () w')
    {f : Part × String} (hf : f ∈ work.files) :
    w'.tree.file? (s.path f.1 slug).place = some (Text.encode f.2) := by
  cases work with
  | drop | rest => cases hf
  | write files stale =>
    obtain ⟨w₁, hput, hstale⟩ := does_writeGroup.1 h
    have hfile := (Does.wrote hput (apart_paths hmarked.parts)).target _ (List.mem_map_of_mem hf)
    have hspares : (((stale.map (s.path · slug)).filter fun p =>
        !(files.map fun f => (s.path f.1 slug, f.2)).any (·.1 = p)).forM removeIfThere).SparesAt
          (· = (s.path f.1 slug).place) :=
      .forM fun p hp => sparesAt_removeIfThere (place_ne_of_stale hp hf)
    have hkept := (hspares.keepsAt w₁).files _ rfl
    rw [hstale] at hkept
    exact hkept.trans hfile

section Jobs

variable {jobs : List Job} {j : Job} {f : Part × String}

/-- Jobs leave alone what none of them owns. -/
theorem file?_of_others (h : (jobs.forM (Job.script s)).Does w () w')
    (hm : ∀ j ∈ jobs, ¬s.Own j.slug m) : w'.tree.file? m = w.tree.file? m := by
  have hjobs : (jobs.forM (Job.script s)).Maintains fun v => v.tree.file? m = w.tree.file? m :=
    .forM fun j hj => maintains_other (· = w.tree.file? m) (hm j hj)
  have hkept := hjobs w rfl
  rwa [h] at hkept

/-- What a job writes is there after all jobs, if no other one has it for its own. -/
theorem file?_of_jobs (h : (jobs.forM (Job.script s)).Does w () w')
    (hslugs : (jobs.map (·.slug)).Nodup) (hj : j ∈ jobs) (hmarked : j.work.Marked)
    (hf : f ∈ j.work.files)
    (hothers : ∀ j' ∈ jobs, j'.slug ≠ j.slug → ¬s.Own j'.slug (s.path f.1 j.slug).place) :
    w'.tree.file? (s.path f.1 j.slug).place = some (Text.encode f.2) := by
  obtain ⟨before, after, rfl⟩ := List.append_of_mem hj
  obtain ⟨w₁, -, h⟩ := does_forM_append.1 h
  obtain ⟨w₂, hfirst, hrest⟩ := does_forM_cons.1 h
  rw [file?_of_others hrest fun j' hj' => ?_]
  · exact file?_of_work hmarked hfirst hf
  · apply hothers j' (List.mem_append_right _ (.tail _ hj'))
    rw [List.map_append, List.map_cons, List.nodup_append] at hslugs
    intro hslug
    exact (List.nodup_cons.1 hslugs.2.1).1 (List.mem_map.2 ⟨j', hj', hslug⟩)

end Jobs

/-! Pruning. -/

/-- A file of a spec whose module is to be kept is not pruned with the modules. -/
theorem spared_of_alone {t : Tree} (hkeep : Part.tests.file slug ∈ keep)
    (hfile : t.file? (s.path part slug).place = some bytes)
    (hmodules : s.plans.place = s.tests.place → ∀ slug' code, slug = "test_" ++ slug' →
      t.file? (s.path .tests slug').place = some code → ¬IsTestBytes code) :
    Spared s keep (s.path part slug).place bytes t where
  there := hfile
  tests slug' hm hother := by
    rcases Part.file_eq_iff.1 (place_path_eq_iff.1 hm).2 with ⟨-, rfl⟩ | ⟨-, h, -⟩ | ⟨-, h, -⟩
    · exact absurd hkeep hother
    · cases h
    · cases h
  manifest slug' code hm hother hcode := by
    obtain ⟨hdir, hname⟩ := place_path_eq_iff.1 hm
    rcases Part.file_eq_iff.1 hname with ⟨-, rfl⟩ | ⟨rfl, -, hslug⟩ | ⟨-, h, -⟩
    · exact absurd hkeep hother
    · exact hmodules hdir slug' code hslug hcode
    · cases h

/-- Nor is it pruned with the plans, as a manifest is none. -/
theorem maintains_prunePlans_of_live (hlive : Part.plan.file slug ∈ keep)
    (hmanifest : part = .manifest → ¬IsPlanBytes bytes) :
    (prunePlans s.plans keep).Maintains fun w => w.tree.file? (s.path part slug).place = some bytes := by
  apply maintains_prunePlans
  intro slug' hm hother
  rcases Part.file_eq_iff.1 (place_path_eq_iff.1 hm).2 with ⟨-, rfl⟩ | ⟨-, h, -⟩ | ⟨h, -, -⟩
  · exact absurd hlive hother
  · cases h
  · exact hmanifest h

/-! Runs. -/

variable {r : Registry} {specs : List Claimant} {jobs : List Job} {w₁ : World}
  {report : Report String Nat}

/-- What is written for a spec with a module is there in the end. -/
theorem Run.file?_eq (h : Run s r true w specs jobs w₁ report w') {j : Job} (hj : j ∈ jobs)
    {f : Part × String} (hf : f ∈ j.work.files)
    (hmodule : j.report.output = some (Part.tests.file j.slug))
    (hmanifest : f.1 = .manifest → ¬IsPlanBytes (Text.encode f.2))
    (halone : s.plans.place = s.tests.place → s.Alone w.tree (jobs.map (·.slug)) j.slug) :
    w'.tree.file? (s.path f.1 j.slug).place = some (Text.encode f.2) := by
  obtain ⟨pruned, w₂, htests, hplans, -⟩ := (finishes_iff h.slugs).1 h.ended
  have hfile : w₁.tree.file? (s.path f.1 j.slug).place = some (Text.encode f.2) := by
    apply file?_of_jobs h.done h.nodup hj (h.marked j hj) hf
    intro j' hj' hne
    exact not_own_path hne.symm fun hdir => (halone hdir).specs _ (List.mem_map_of_mem hj')
  -- a module that is left over has no spec, so it is what it was at the start
  have hmodules : s.plans.place = s.tests.place → ∀ slug' code, j.slug = "test_" ++ slug' →
      w₁.tree.file? (s.path .tests slug').place = some code → ¬IsTestBytes code := by
    intro hdir slug' code hslug hcode
    rw [file?_of_others h.done fun j' hj' => ?_] at hcode
    · exact (halone hdir).modules slug' code hslug hcode
    · apply not_own_tests
      rintro rfl
      exact ((halone hdir).specs _ (List.mem_map_of_mem hj')).1 hslug
  have hkeep : Part.tests.file j.slug ∈ jobs.filterMap (·.report.output) :=
    List.mem_filterMap.2 ⟨j, hj, hmodule⟩
  have hspared := maintains_pruneTests w₁ (spared_of_alone hkeep hfile hmodules)
  rw [htests] at hspared
  have hkept := maintains_prunePlans_of_live (mem_plans.2 (List.mem_map_of_mem hj)) hmanifest w₂
    hspared.there
  rwa [hplans] at hkept

/-- Each report of a spec that owns its name is that of a job. -/
theorem exists_job_of_mem_zip {cs : List Claimant} {c : Claimant} {file : FileReport String Nat}
    {rest : List (FileReport String Nat)}
    (hjobs : cs.mapM (jobOf root r true (replyOf w)) = .ok jobs)
    (h : (c, file) ∈ cs.zip (jobs.map (·.report) ++ rest)) :
    ∃ j ∈ jobs, jobOf root r true (replyOf w) c = .ok j ∧ file = j.report := by
  induction mapM_eq_ok.1 hjobs with
  | nil => cases h
  | @cons d j cs jobs hj hjs ih =>
    rcases List.mem_cons.1 h with h | h
    · obtain ⟨rfl, rfl⟩ := Prod.mk.inj h
      exact ⟨j, .head _, hj, rfl⟩
    · obtain ⟨k, hk, hjob, hfile⟩ := ih (mapM_eq_ok.2 hjs) h
      exact ⟨k, .tail _ hk, hjob, hfile⟩

/-- Of two specs that are not told of a collision none of the files is one of the other's, unless
plans and tests have one directory and the slug of one is `test_` and that of the other. What is
emitted for a spec is in the end what was made from it, if in such a directory the spec is alone. -/
theorem files_of_emitted (s : Places root settings) (hw : w.tree.Sound)
    (hr : (readRegistry s.registry).Does w r w) {paths : List Path}
    (hpaths : (specFiles s.specs).Does w paths w) (hspecs : claimants s.specs paths = .ok specs)
    (h : (compile root settings true).Does w report w') :
    (∀ c ∈ specs, ∀ d ∈ specs, c ≠ d → collision? root (owners [] specs) c = none →
      collision? root (owners [] specs) d = none →
      ((∃ part part', (s.path part c.slug).place = (s.path part' d.slug).place) ↔
        s.plans.place = s.tests.place ∧ (c.slug = "test_" ++ d.slug ∨ d.slug = "test_" ++ c.slug))) ∧
    ∀ c file, (c, file) ∈ (owners [] specs).zip report.files → file.output ≠ none →
      ∃ (plan d : Plan) (text : String) (m : Emission.TestModule),
        planOf (specName root c.path) (replyOf w c.path) = .ok plan ∧ plan.resolve r = .ok d ∧
        Plan.write d.stored = .ok text ∧
        Emission.testModule r d.stored c.slug d.ready.stored.scenarios = .ok m ∧
        ((s.plans.place = s.tests.place →
            s.Alone w.tree ((owners [] specs).map (·.slug)) c.slug) →
          ∀ f ∈ [(Part.plan, text), (.tests, m.code), (.manifest, m.manifestText)],
            w'.tree.file? (s.path f.1 c.slug).place = some (Text.encode f.2)) := by
  have hslugs : ((owners [] specs).map (·.slug)).Nodup := nodup_owners List.nodup_nil
  refine ⟨fun c hc d hd hne hcfree hdfree => exists_place_eq_iff fun hslug => hne ?_, ?_⟩
  · exact List.inj_on_of_nodup_map hslugs (mem_owners_of_collision? hc hcfree)
      (mem_owners_of_collision? hd hdfree) hslug
  · intro c file hfile houtput
    obtain ⟨jobs, w₁, hrun⟩ := exists_run_of_compile s hw hr hpaths hspecs h
    rw [(hrun.ended.files s).1] at hfile
    obtain ⟨j, hj, hjob, rfl⟩ := exists_job_of_mem_zip hrun.decided hfile
    obtain ⟨hslug, hwork⟩ := jobOf_eq_ok.1 hjob
    rcases workOf_cases hwork with ⟨-, hnone, -⟩ | ⟨plan, d, text, hplan, hresolve, htext, hmade⟩
    · exact absurd hnone houtput
    rcases hmade with ⟨hnone, -⟩ | ⟨m, hmodule, hsome, hfiles⟩
    · exact absurd hnone houtput
    refine ⟨plan, d, text, m, hplan, hresolve, htext, hmodule, fun halone f hf => ?_⟩
    have hfiles : j.work = _ := hfiles
    rw [file_of_testModule hmodule] at hsome
    rw [← hrun.slugs] at halone
    rw [← hslug] at hsome halone ⊢
    apply hrun.file?_eq hj (by rwa [hfiles]) hsome (fun hpart => ?_) halone
    simp only [List.mem_cons, List.not_mem_nil, or_false] at hf
    rcases hf with rfl | rfl | rfl
    · cases hpart
    · cases hpart
    · exact not_isPlanBytes_manifest hmodule

/-! One directory for plans and tests. -/

/-- A registry with a template for an action and one for an outcome. -/
def stepsText : String :=
  "module: m\ntemplates:\n- \x7bkind: WHEN, pattern: a, operation: b\x7d\n" ++
    "- \x7bkind: THEN, pattern: c, operation: d\x7d\n"

/-- What is read from it. -/
def stepsRead : Registry :=
  ⟨"m", [⟨.action, "a", "b", [], none, none, .eq, false⟩,
    ⟨.outcome, "c", "d", [], none, none, .truthy, false⟩], none, none, "specs/operations.yaml"⟩

theorem registryOf_steps :
    registryOf (usual here).registry (.ok (Text.encode stepsText)) = .ok stepsRead :=
  eq_ok_of_toOption (by decide +kernel)

def readyText : String := "WHEN a.\nTHEN c.\n"

/-- A spec of which all is ready. -/
def readySpec : String × String := ("first.gwt", readyText)

/-- A spec of which nothing is ready, and whose plan has the name of a manifest. -/
def clashingSpec : String × String := ("test_first.gwt", leapText)

/-- A project with some specs, and some files in the directory for plans and tests. -/
def sharing (specs made : List (String × String)) : World where
  tree := ⟨made.map (fun f => (["gen", f.1], .file (Text.encode f.2))) ++ [(["gen"], .dir),
      (["specs"], .dir), (["specs", "operations.yaml"], .file (Text.encode stepsText))] ++
    specs.map fun f => (["specs", f.1], .file (Text.encode f.2))⟩

def testFirst : Claimant := ⟨(usual here).specs.child "test_first.gwt", "test_first"⟩

/-- The files of the first spec, where `m` is in the place of its manifest. -/
def firstFiles (p c m : String) : List (String × String) :=
  [("test_first.py", c), ("test_first.json", m), ("first.json", p)]

def moduleWork (p c m : String) : Work :=
  .write [(.plan, p), (.tests, c), (.manifest, m)] [.tests, .manifest]

section Sharing

variable {specs : List (String × String)} {p c m q : String}

/-- The files of the first spec in the order of their paths. -/
def firstGroup (p c m : String) : List (Path × String) :=
  [(Part.plan, p), (.manifest, m), (.tests, c)].map fun f => ((placesFor "gen").path f.1 "first", f.2)

theorem sorted_first : ((moduleWork p c m).files.map fun f =>
    ((placesFor "gen").path f.1 "first", f.2)).mergeSort (fun a b => a.1.le b.1) =
      firstGroup p c m := by
  have hfirst (part : Part) : ((placesFor "gen").path .plan "first").le
      ((placesFor "gen").path part "first") = true := by cases part <;> decide +kernel
  have hlast : ((placesFor "gen").path .tests "first").le
      ((placesFor "gen").path .manifest "first") = false := by decide +kernel
  simp [moduleWork, Work.files, firstGroup, List.mergeSort, List.MergeSort.Internal.splitInTwo, hfirst,
    hlast]

theorem writable_first (hspecs : specs = [readySpec] ∨ specs = [readySpec, clashingSpec]) :
    (sharing specs []).tree.Writable (firstGroup p c m) := by
  have hway (part : Part) :
      (sharing specs []).tree.Open ((placesFor "gen").path part "first").parent := by
    rcases hspecs with rfl | rfl <;> cases part
    all_goals exact ⟨rfl, by decide, by unfold Tree.NameFits; decide, by decide +kernel⟩
  have husable (part : Part) : ((placesFor "gen").path part "first").Usable ∧
      (draftOf ((placesFor "gen").path part "first")).Usable := by
    cases part <;> exact ⟨⟨rfl, by decide, by decide⟩, ⟨rfl, by decide, by decide⟩⟩
  have hclear (part part' : Part) : ∀ m ∈ [((placesFor "gen").path part "first").place,
      ((placesFor "gen").path part "first").draftPlace], (sharing specs []).tree.get? m ≠ some .dir ∧
        m ∉ ((placesFor "gen").path part' "first").parent.trail := by
    rcases hspecs with rfl | rfl <;> cases part <;> cases part' <;> decide +kernel
  refine ⟨?_, ?_, ?_⟩ <;> simp only [firstGroup, List.forall_mem_map]
  · exact fun f _ => hway f.1
  · exact fun f _ => husable f.1
  · exact fun f _ m hm => ⟨(hclear f.1 f.1 m hm).1, fun g _ => (hclear f.1 g.1 m hm).2⟩

/-- Plan, module and manifest of the first spec are written. -/
theorem does_first_module (hspecs : specs = [readySpec] ∨ specs = [readySpec, clashingSpec]) :
    ((moduleWork p c m).script (placesFor "gen") "first").Does (sharing specs []) ()
      (sharing specs (firstFiles p c m)) := by
  have hplace (part : Part) : ((placesFor "gen").path part "first").place =
      ["gen", part.file "first"] := by cases part <;> decide +kernel
  have hdraft (part : Part) : ((placesFor "gen").path part "first").draftPlace =
      ["gen", "." ++ part.file "first" ++ ".tmp"] := by cases part <;> decide +kernel
  have htree : sharing specs (firstFiles p c m) = { sharing specs [] with
      tree := ((sharing specs []).tree.stagedAll (firstGroup p c m)).swappedAll (firstGroup p c m) } := by
    simp only [firstGroup, Tree.stagedAll, Tree.swappedAll, Tree.staged, Tree.swapped, List.map_cons,
      List.map_nil, List.foldl_cons, List.foldl_nil, hplace, hdraft]
    rcases hspecs with rfl | rfl <;> rfl
  have hput := (does_putGroup_sorted (apart_paths (by simp [moduleWork, Work.files])) sorted_first).2
    ⟨writable_first hspecs, htree⟩
  refine does_writeGroup.2 ⟨_, hput, ?_⟩
  rw [List.filter_eq_nil_iff.2 (by simp)]
  exact does_forM_nil.2 rfl

/-- The plan of the other spec takes the place of the manifest. -/
theorem does_clash : ((planWork q).script (placesFor "gen") "test_first").Does
    (sharing [readySpec, clashingSpec] (firstFiles p c m)) () (sharing [readySpec, clashingSpec]
      [("test_first.json", q), ("test_first.py", c), ("first.json", p)]) := by
  have hstage : (stage ((placesFor "gen").path .plan "test_first") q).Does
    (sharing [readySpec, clashingSpec] (firstFiles p c m)) ⟨_, draftOf _⟩
    (sharing [readySpec, clashingSpec] ((".test_first.json.tmp", q) :: firstFiles p c m)) := rfl
  refine does_writeGroup_one hstage rfl (does_removals_of_missing fun p hp => ?_)
  rcases List.mem_pair.1 (List.mem_of_mem_filter hp) with rfl | rfl
  · rfl
  · rfl

/-- What is decided on for both specs: the first comes to a module, the other to a plan. -/
structure Shares (file other : FileReport String Nat) (p q : String) (m : Emission.TestModule) :
    Prop where
  module : ∃ plan d : Plan, planOf "specs/first.gwt" (.ok (Text.encode readyText)) = .ok plan ∧
    plan.resolve stepsRead = .ok d ∧
    Emission.testModule stepsRead d.stored "first" d.ready.stored.scenarios = .ok m
  first : workOf stepsRead true "first" "specs/first.gwt"
    (planOf "specs/first.gwt" (.ok (Text.encode readyText))) =
      .ok (file, moduleWork p m.code m.manifestText)
  clashing : workOf stepsRead true "test_first" "specs/test_first.gwt"
    (planOf "specs/test_first.gwt" (.ok (Text.encode leapText))) = .ok (other, planWork q)
  output : file.output = some "test_first.py" ∧ other.output = none

theorem exists_shares : ∃ file other p q m, Shares file other p q m := by
  have hreport : (workOf stepsRead true "first" "specs/first.gwt"
      (planOf "specs/first.gwt" (.ok (Text.encode readyText)))).toOption.map (·.1.output) =
        some (some "test_first.py") := by decide +kernel
  obtain ⟨⟨file, work⟩, hmade, houtput⟩ := Option.map_eq_some_iff.1 hreport
  have hmade := eq_ok_of_toOption hmade
  obtain ⟨other, q, hnone, hother⟩ := exists_plan_work stepsRead "test_first" "specs/test_first.gwt"
    (.ok (Text.encode leapText)) (by decide +kernel)
  rcases workOf_cases hmade with ⟨-, hnone, -⟩ | ⟨plan, d, p, hplan, hd, -, hcases⟩
  · cases houtput.symm.trans hnone
  rcases hcases with ⟨hnone, -⟩ | ⟨m, hm, -, rfl⟩
  · cases houtput.symm.trans hnone
  · exact ⟨file, other, p, q, m, ⟨plan, d, hplan, hd, hm⟩, hmade, hother, houtput, hnone⟩

theorem sound_sharing (hspecs : specs = [readySpec] ∨ specs = [readySpec, clashingSpec]) :
    (sharing specs []).tree.Sound := by
  rcases hspecs with rfl | rfl
  all_goals
    refine ⟨?_, ?_, ?_⟩
    all_goals simp [sharing, readySpec, clashingSpec, Tree.get?]

theorem does_specFiles_ready : (specFiles (placesFor "gen").specs).Does (sharing [readySpec] [])
    [firstSpec.path] (sharing [readySpec] []) :=
  does_specFiles_of_sorted rfl rfl (List.pairwise_singleton ..)

theorem does_specFiles_clashing :
    (specFiles (placesFor "gen").specs).Does (sharing [readySpec, clashingSpec] [])
      [firstSpec.path, testFirst.path] (sharing [readySpec, clashingSpec] []) :=
  does_specFiles_of_sorted rfl rfl (by decide +kernel)

/-- The files that are made, alone or in presence of the other spec. -/
def Made (specs made : List (String × String)) (p c m : String) : Prop :=
  specs = [readySpec] ∧ made = firstFiles p c m ∨ specs = [readySpec, clashingSpec] ∧
    made = [("test_first.json", m), ("test_first.py", c), ("first.json", p)]

namespace Made

variable {made : List (String × String)}

theorem isDir (h : Made specs made p c m) :
    (Script.isDir (placesFor "gen").tests).Does (sharing specs made) true (sharing specs made) := by
  rcases h with ⟨rfl, rfl⟩ | ⟨rfl, rfl⟩ <;> rfl

theorem listBelow_eq (h : Made specs made p c m) :
    (sharing specs made).tree.listBelow (placesFor "gen").tests =
        [(["test_first.py"], .file), (["test_first.json"], .file), (["first.json"], .file)] ∨
      (sharing specs made).tree.listBelow (placesFor "gen").tests =
        [(["test_first.json"], .file), (["test_first.py"], .file), (["first.json"], .file)] := by
  rcases h with ⟨rfl, rfl⟩ | ⟨rfl, rfl⟩
  · exact .inl rfl
  · exact .inr rfl

/-- The module of the first spec is kept, whatever is in the place of its manifest. -/
theorem does_pruneTests (h : Made specs made p c m) :
    (pruneTests (placesFor "gen").tests ["test_first.py"]).Does (sharing specs made) []
      (sharing specs made) := by
  have hchildren : (childrenNamed "test_" ".py" (placesFor "gen").tests).Does (sharing specs made)
      [(placesFor "gen").path .tests "first"] (sharing specs made) := by
    rcases h.listBelow_eq with hlist | hlist
    all_goals
      refine does_bind.2 ⟨_, _, does_listBelow.2 ⟨hlist, rfl⟩, does_pure.2 ⟨?_, rfl⟩⟩
      exact List.mergeSort_singleton _
  refine does_bind.2 ⟨true, _, h.isDir, does_bind.2 ⟨_, _, hchildren, ?_⟩⟩
  exact does_bind.2 ⟨_, _, does_mapM_cons.2 ⟨[], _, _, rfl, does_mapM_nil.2 ⟨rfl, rfl⟩, rfl⟩, rfl⟩

/-- So is what is in that place, which is no plan or the plan of a spec. -/
theorem does_prunePlans {live : List String} (h : Made specs made p c m)
    (hlive : Part.plan.file "first" ∈ live)
    (hother : (prunePlan live ((placesFor "gen").path .plan "test_first")).Does (sharing specs made) ()
      (sharing specs made)) :
    (prunePlans (placesFor "gen").plans live).Does (sharing specs made) () (sharing specs made) := by
  have hle : ((placesFor "gen").path .plan "test_first").le ((placesFor "gen").path .plan "first") =
      false := by decide +kernel
  have hsorted : sortPaths [(placesFor "gen").path .plan "test_first",
      (placesFor "gen").path .plan "first"] =
        [(placesFor "gen").path .plan "first", (placesFor "gen").path .plan "test_first"] := by
    simp [sortPaths, List.mergeSort, List.MergeSort.Internal.splitInTwo, hle]
  have hchildren : (childrenNamed "" ".json" (placesFor "gen").plans).Does (sharing specs made)
      [(placesFor "gen").path .plan "first", (placesFor "gen").path .plan "test_first"]
      (sharing specs made) := by
    rcases h.listBelow_eq with hlist | hlist
    all_goals
      refine does_bind.2 ⟨_, _, does_listBelow.2 ⟨hlist, rfl⟩, does_pure.2 ⟨?_, rfl⟩⟩
      exact hsorted
  have hfirst : (prunePlan live ((placesFor "gen").path .plan "first")).Does (sharing specs made) ()
      (sharing specs made) := by
    rw [prunePlan, if_pos (by simpa using hlive)]
    exact does_pure.2 ⟨rfl, rfl⟩
  refine does_bind.2 ⟨true, _, h.isDir, does_bind.2 ⟨_, _, hchildren, ?_⟩⟩
  exact does_forM_cons.2 ⟨_, hfirst, does_forM_cons.2 ⟨_, hother, does_forM_nil.2 rfl⟩⟩

end Made

namespace Shares

variable {file other : FileReport String Nat} {m : Emission.TestModule}

theorem does_compile_ready (h : Shares file other p q m) :
    (compile here (settingsFor "gen") true).Does (sharing [readySpec] []) { files := [file] }
      (sharing [readySpec] (firstFiles p m.code m.manifestText)) := by
  let job : Job := ⟨"first", file, moduleWork p m.code m.manifestText⟩
  have hjob : jobOf here stepsRead true (replyOf (sharing [readySpec] [])) firstSpec = .ok job :=
    jobOf_eq_ok.2 ⟨rfl, h.first⟩
  have houtputs : [job].filterMap (·.report.output) = ["test_first.py"] := by simp [job, h.output]
  have hmanifest : (prunePlan ["first.json"] ((placesFor "gen").path .plan "test_first")).Does
      (sharing [readySpec] (firstFiles p m.code m.manifestText)) ()
      (sharing [readySpec] (firstFiles p m.code m.manifestText)) := by
    obtain ⟨plan, d, -, -, hm⟩ := h.module
    rw [prunePlan, if_neg (by decide +kernel)]
    exact does_bind.2 ⟨false, _, does_isPlanFile.2 ⟨planFileOf_manifest hm, rfl⟩, rfl⟩
  refine (does_compile_iff (placesFor "gen")).2 (.inl ⟨stepsRead, registryOf_steps,
    (does_compileAll_iff (placesFor "gen") rfl (sound_sharing (.inl rfl))).2 ⟨[firstSpec], [job], _,
      ⟨_, does_specFiles_ready, rfl⟩, mapM_cons_eq_ok.2 ⟨job, [], hjob, rfl, rfl⟩,
      does_forM_cons.2 ⟨_, does_first_module (.inl rfl), does_forM_nil.2 rfl⟩, ?_⟩⟩)
  refine (finishes_iff rfl).2 ⟨[], _, ?_,
    Made.does_prunePlans (.inl ⟨rfl, rfl⟩) (.head _) hmanifest, rfl⟩
  rw [houtputs]
  exact Made.does_pruneTests (.inl ⟨rfl, rfl⟩)

theorem does_compile_clashing (h : Shares file other p q m) :
    (compile here (settingsFor "gen") true).Does (sharing [readySpec, clashingSpec] [])
      { files := [file, other] } (sharing [readySpec, clashingSpec]
        [("test_first.json", q), ("test_first.py", m.code), ("first.json", p)]) := by
  let first : Job := ⟨"first", file, moduleWork p m.code m.manifestText⟩
  let clash : Job := ⟨"test_first", other, planWork q⟩
  have hfirst : jobOf here stepsRead true (replyOf (sharing [readySpec, clashingSpec] [])) firstSpec =
      .ok first := jobOf_eq_ok.2 ⟨rfl, h.first⟩
  have hclash : jobOf here stepsRead true (replyOf (sharing [readySpec, clashingSpec] [])) testFirst =
      .ok clash := jobOf_eq_ok.2 ⟨rfl, h.clashing⟩
  have houtputs : [first, clash].filterMap (·.report.output) = ["test_first.py"] := by
    simp [first, clash, h.output]
  refine (does_compile_iff (placesFor "gen")).2 (.inl ⟨stepsRead, registryOf_steps,
    (does_compileAll_iff (placesFor "gen") rfl (sound_sharing (.inr rfl))).2
      ⟨[firstSpec, testFirst], [first, clash], _, ⟨_, does_specFiles_clashing, rfl⟩,
      mapM_cons_eq_ok.2 ⟨first, [clash], hfirst, mapM_cons_eq_ok.2 ⟨clash, [], hclash, rfl, rfl⟩, rfl⟩,
      does_forM_cons.2 ⟨_, does_first_module (.inr rfl),
        does_forM_cons.2 ⟨_, does_clash, does_forM_nil.2 rfl⟩⟩, ?_⟩⟩)
  refine (finishes_iff rfl).2 ⟨[], _, ?_, Made.does_prunePlans (.inr ⟨rfl, rfl⟩) (.head _) ?_, rfl⟩
  · rw [houtputs]
    exact Made.does_pruneTests (.inr ⟨rfl, rfl⟩)
  · rw [prunePlan, if_pos (by simp [first, clash])]
    exact does_pure.2 ⟨rfl, rfl⟩

end Shares

end Sharing

/-- The manifest of the only spec is beside its plan, in a directory that both share, and is kept. -/
theorem files_of_emitted_ready :
    (placesFor "gen").plans.place = (placesFor "gen").tests.place ∧ ∃ r report w',
    (readRegistry (placesFor "gen").registry).Does (sharing [readySpec] []) r
      (sharing [readySpec] []) ∧
    (compile here (settingsFor "gen") true).Does (sharing [readySpec] []) report w' ∧
    ∃ (d : Plan) (text : String) (m : Emission.TestModule), Plan.write d.stored = .ok text ∧
      Emission.testModule r d.stored "first" d.ready.stored.scenarios = .ok m ∧
      ∀ f ∈ [(Part.plan, text), (.tests, m.code), (.manifest, m.manifestText)],
        w'.tree.file? ((placesFor "gen").path f.1 "first").place = some (Text.encode f.2) := by
  obtain ⟨file, other, p, q, m, h⟩ := exists_shares
  have hregistry : (readRegistry (placesFor "gen").registry).Does (sharing [readySpec] []) stepsRead
      (sharing [readySpec] []) := does_readRegistry.2 ⟨registryOf_steps, rfl⟩
  have hclaimants : claimants (placesFor "gen").specs [firstSpec.path] = .ok [firstSpec] := rfl
  obtain ⟨-, hfiles⟩ := files_of_emitted (placesFor "gen") (sound_sharing (.inl rfl)) hregistry
    does_specFiles_ready hclaimants h.does_compile_ready
  have howners : owners [] [firstSpec] = [firstSpec] := by decide +kernel
  rw [howners] at hfiles
  obtain ⟨plan, d, text, m, -, -, htext, hm, hwritten⟩ :=
    hfiles firstSpec file (.head _) (by simp [h.output])
  have halone : (placesFor "gen").Alone (sharing [readySpec] []).tree ["first"] "first" := by
    refine ⟨by decide +kernel, fun slug code hslug => ?_⟩
    have hstart := congrArg (fun s => s.toList.head?) hslug
    simp at hstart
  exact ⟨rfl, _, _, _, hregistry, h.does_compile_ready, d, text, m, htext, hm,
    hwritten fun _ => halone⟩

/-- Two specs that are both compiled without a problem, where the plan of one is in the place of the
manifest of the other. -/
theorem plan_in_place_of_manifest :
    [firstSpec, testFirst].filterMap (collision? here (owners [] [firstSpec, testFirst])) = [] ∧
    ((placesFor "gen").path .manifest "first").place =
      ((placesFor "gen").path .plan "test_first").place ∧
    ∃ r report w', (specFiles (placesFor "gen").specs).Does (sharing [readySpec, clashingSpec] [])
        [firstSpec.path, testFirst.path] (sharing [readySpec, clashingSpec] []) ∧
      (readRegistry (placesFor "gen").registry).Does (sharing [readySpec, clashingSpec] []) r
        (sharing [readySpec, clashingSpec] []) ∧
      (compile here (settingsFor "gen") true).Does (sharing [readySpec, clashingSpec] []) report w' ∧
      ∃ (plan d : Plan) (m : Emission.TestModule),
        planOf "specs/first.gwt" (.ok (Text.encode readyText)) = .ok plan ∧ plan.resolve r = .ok d ∧
        Emission.testModule r d.stored "first" d.ready.stored.scenarios = .ok m ∧
        w'.tree.file? ["gen", "test_first.py"] = some (Text.encode m.code) ∧
        w'.tree.file? ["gen", "test_first.json"] ≠ some (Text.encode m.manifestText) := by
  obtain ⟨file, other, p, q, m, h⟩ := exists_shares
  obtain ⟨plan, d, hplan, hd, hm⟩ := h.module
  have hmarked : IsPlanBytes (Text.encode q) := (marked_of_workOf h.clashing).bears _ (.head _)
  refine ⟨by decide +kernel, by decide +kernel, _, _, _, does_specFiles_clashing,
    does_readRegistry.2 ⟨registryOf_steps, rfl⟩, h.does_compile_clashing, plan, d, m, hplan, hd, hm, rfl,
    ?_⟩
  intro hsame
  have hsame : some (Text.encode q) = some (Text.encode m.manifestText) := hsame
  exact not_isPlanBytes_manifest hm (Option.some.inj hsame ▸ hmarked)

end Acceptance.Project

import Acceptance.Proofs.FoundSpecs
import Acceptance.Proofs.Pruning
/-!
Compiling in two parts: from what is read of the specs it is decided what is to be done for each, and
then it is done. The first part is the same in all trees with the same specs.
-/
namespace Acceptance.Project

open Script

/-- What is to be done for a spec. -/
structure Job where
  slug : String
  report : FileReport String Nat
  work : Work

def Job.script {root : Path} {settings : Settings} (s : Places root settings) (j : Job) :
    Script Unit :=
  j.work.script s j.slug

def jobOf (root : Path) (r : Registry) (emit : Bool) (read : Path → Except FileError ByteArray)
    (c : Claimant) : Outcome Job := do
  let name := specName root c.path
  let made ← workOf r emit c.slug name (planOf name (read c.path))
  return ⟨c.slug, made.1, made.2⟩

section Deciding

variable {root : Path} {r : Registry} {emit : Bool} {read read' : Path → Except FileError ByteArray}
  {c : Claimant} {cs : List Claimant} {job : Job} {jobs : List Job}

theorem jobOf_eq_ok : jobOf root r emit read c = .ok job ↔ job.slug = c.slug ∧
    workOf r emit c.slug (specName root c.path) (planOf (specName root c.path) (read c.path)) =
      .ok (job.report, job.work) := by
  rw [jobOf, bind_eq_ok]
  constructor
  · rintro ⟨made, hmade, hjob⟩
    cases hjob
    exact ⟨rfl, hmade⟩
  · rintro ⟨hslug, hmade⟩
    refine ⟨_, hmade, ?_⟩
    rw [← hslug]
    rfl

theorem jobOf_congr (h : read' c.path = read c.path) :
    jobOf root r emit read' c = jobOf root r emit read c := by
  rw [jobOf, jobOf, h]

theorem mapM_jobOf_congr (h : ∀ c ∈ cs, read' c.path = read c.path) :
    cs.mapM (jobOf root r emit read') = cs.mapM (jobOf root r emit read) := by
  induction cs with
  | nil => rfl
  | cons c cs ih =>
    obtain ⟨hc, hcs⟩ := List.forall_mem_cons.1 h
    rw [List.mapM_cons, List.mapM_cons, jobOf_congr hc, ih hcs]

theorem slug_of_mapM_jobOf (h : cs.mapM (jobOf root r emit read) = .ok jobs) :
    jobs.map (·.slug) = cs.map (·.slug) :=
  map_eq_of_mapM (fun _ _ hjob => (jobOf_eq_ok.1 hjob).1) h

theorem marked_of_mapM_jobOf (h : cs.mapM (jobOf root r emit read) = .ok jobs) :
    ∀ j ∈ jobs, j.work.Marked := by
  intro j hj
  obtain ⟨c, -, hc⟩ := exists_of_mem_mapM h j hj
  exact marked_of_workOf (jobOf_eq_ok.1 hc).2

end Deciding

section Doing

variable {root : Path} {settings : Settings} {s : Places root settings} {r : Registry} {emit : Bool}
  {c : Claimant} {cs : List Claimant} {w w' w₀ : World}

theorem does_compileSpec (hslug : specSlug s.specs c.path = .ok c.slug)
    {file : FileReport String Nat} : (compileSpec root settings r emit c.path).Does w file w' ↔
      ∃ job, jobOf root r emit (replyOf w) c = .ok job ∧ file = job.report ∧
        (job.script s).Does w () w' := by
  rw [compileSpec_eq s hslug, Does, run_bind_of_does (does_ask.2 (perform_read w c.path))]
  rw [← Does, does_bind]
  constructor
  · rintro ⟨made, w₁, hmade, hrest⟩
    obtain ⟨hwork, rfl⟩ := does_ofOutcome.1 hmade
    obtain ⟨w₂, hscript, hend⟩ := does_seq.1 hrest
    obtain ⟨rfl, rfl⟩ := does_pure.1 hend
    exact ⟨⟨c.slug, made.1, made.2⟩, jobOf_eq_ok.2 ⟨rfl, hwork⟩, rfl, hscript⟩
  · rintro ⟨⟨slug, report, work⟩, hjob, rfl, hscript⟩
    obtain ⟨rfl, hwork⟩ := jobOf_eq_ok.1 hjob
    refine ⟨_, w, does_ofOutcome.2 ⟨hwork, rfl⟩, ?_⟩
    exact does_seq.2 ⟨w', hscript, does_pure.2 ⟨rfl, rfl⟩⟩

theorem keepsSpecs_job {job : Job} (h : (job.script s).Does w () w') :
    w.tree.KeepsSpecs w'.tree := by
  have hspares : (job.script s).SparesSpecs := sparesSpecs_work job.work
  have hkept := hspares.keepsSpecs w
  rwa [show (job.script s).run w = (.ok (), w') from h] at hkept

variable {files : List (FileReport String Nat)} {together : Bool} {report : Report String Nat}

/-- Specs are compiled one after the other by doing the jobs that are decided on at the start. -/
theorem does_compileSpecs (hs : w₀.tree.Sound) (hk : w₀.tree.KeepsSpecs w.tree)
    (hfound : ∀ c ∈ cs, Found w₀.tree s.specs c.path ∧ specSlug s.specs c.path = .ok c.slug) :
    ((cs.map (·.path)).mapM (compileSpec root settings r emit)).Does w files w' ↔
      ∃ jobs, cs.mapM (jobOf root r emit (replyOf w₀)) = .ok jobs ∧ files = jobs.map (·.report) ∧
        (jobs.forM (Job.script s)).Does w () w' := by
  induction cs generalizing w files with
  | nil =>
    rw [List.map_nil, does_mapM_nil]
    constructor
    · rintro ⟨rfl, rfl⟩
      exact ⟨[], rfl, rfl, does_forM_nil.2 rfl⟩
    · rintro ⟨jobs, hjobs, rfl, h⟩
      cases hjobs
      exact ⟨rfl, does_forM_nil.1 h⟩
  | cons c cs ih =>
    obtain ⟨⟨hc, hslug⟩, hcs⟩ := List.forall_mem_cons.1 hfound
    have hread : jobOf root r emit (replyOf w) c = jobOf root r emit (replyOf w₀) c :=
      jobOf_congr (replyOf_of_keepsSpecs hk hs hc)
    simp only [List.map_cons, does_mapM_cons, does_compileSpec hslug, hread]
    constructor
    · rintro ⟨file, rest, w₁, ⟨job, hjob, rfl, hscript⟩, hrest, rfl⟩
      obtain ⟨jobs, hjobs, rfl, hscripts⟩ := (ih (hk.trans (keepsSpecs_job hscript)) hcs).1 hrest
      refine ⟨job :: jobs, ?_, rfl, does_forM_cons.2 ⟨w₁, hscript, hscripts⟩⟩
      exact mapM_cons_eq_ok.2 ⟨job, jobs, hjob, hjobs, rfl⟩
    · rintro ⟨jobs, hjobs, rfl, hscripts⟩
      obtain ⟨job, rest, hjob, hrest, rfl⟩ := mapM_cons_eq_ok.1 hjobs
      obtain ⟨w₁, hscript, hscripts⟩ := does_forM_cons.1 hscripts
      refine ⟨job.report, _, w₁, ⟨job, hjob, rfl, hscript⟩, ?_, rfl⟩
      exact (ih (hk.trans (keepsSpecs_job hscript)) hcs).2 ⟨rest, hrest, rfl, hscripts⟩

/-- Attempts that all succeed are no different from the steps themselves. -/
theorem does_attempts {α β : Type} {f : α → Script β} {as : List α} {bs : List β} :
    (∃ rs, (as.mapM fun a => (f a).attempt).Does w rs w' ∧ rs.mapM id = .ok bs) ↔
      (as.mapM f).Does w bs w' := by
  induction as generalizing w bs with
  | nil =>
    simp only [does_mapM_nil]
    constructor
    · rintro ⟨rs, ⟨rfl, rfl⟩, hbs⟩
      cases hbs
      exact ⟨rfl, rfl⟩
    · rintro ⟨rfl, rfl⟩
      exact ⟨[], ⟨rfl, rfl⟩, rfl⟩
  | cons a as ih =>
    simp only [does_mapM_cons, does_attempt, ← ih]
    constructor
    · rintro ⟨rs, ⟨r, rest, w₁, hr, hrest, rfl⟩, hbs⟩
      obtain ⟨b, bs', rfl, hbs', rfl⟩ := mapM_cons_eq_ok.1 hbs
      exact ⟨b, bs', w₁, hr, ⟨rest, hrest, hbs'⟩, rfl⟩
    · rintro ⟨b, bs', w₁, hb, ⟨rest, hrest, hbs'⟩, rfl⟩
      exact ⟨.ok b :: rest, ⟨_, rest, w₁, hb, hrest, rfl⟩,
        mapM_cons_eq_ok.2 ⟨b, bs', rfl, hbs', rfl⟩⟩

/-- It makes no difference for success whether specs are compiled in turn or side by side. -/
theorem does_several {each : Path → Script (FileReport String Nat)} {paths : List Path} :
    (several together each paths).Does w files w' ↔ (paths.mapM each).Does w files w' := by
  unfold several
  split
  · rw [sideBySide, does_bind, ← does_attempts]
    simp only [does_ofOutcome]
    constructor
    · rintro ⟨rs, w₁, hrs, hfiles, rfl⟩
      exact ⟨rs, hrs, hfiles⟩
    · rintro ⟨rs, hrs, hfiles⟩
      exact ⟨rs, w', hrs, hfiles, rfl⟩
  · rfl

theorem exists_workers (h : (compileAll root settings r emit).Does w report w') :
    ∃ together, severalWorkers settings = .ok together := by
  obtain ⟨_, w₁, _, h₁⟩ := does_bind.1 h
  obtain ⟨_, w₂, _, h₂⟩ := does_bind.1 h₁
  obtain ⟨_, w₃, _, h₃⟩ := does_bind.1 h₂
  obtain ⟨together, w₄, h₄, -⟩ := does_bind.1 h₃
  exact ⟨together, (does_ofFit.1 h₄).1⟩

/-- A run of compiling all specs: they are found, jobs are decided on and done, and the rest is
pruned. -/
structure Run (s : Places root settings) (r : Registry) (emit : Bool) (w : World)
    (specs : List Claimant) (jobs : List Job) (w₁ : World) (report : Report String Nat)
    (w' : World) : Prop where
  found : ∃ paths, (specFiles s.specs).Does w paths w ∧ claimants s.specs paths = .ok specs
  decided : (owners [] specs).mapM (jobOf root r emit (replyOf w)) = .ok jobs
  done : (jobs.forM (Job.script s)).Does w () w₁
  ended : Finishes s emit specs
    (jobs.map (·.report) ++ specs.filterMap (collision? root (owners [] specs))) w₁ report w'

theorem does_compileAll_iff (s : Places root settings)
    (hworkers : severalWorkers settings = .ok together) (hs : w.tree.Sound) :
    (compileAll root settings r emit).Does w report w' ↔
      ∃ specs jobs w₁, Run s r emit w specs jobs w₁ report w' := by
  rw [does_compileAll s hworkers]
  simp only [does_several]
  constructor
  · rintro ⟨paths, w₁, specs, files, w₂, hpaths, hspecs, hfiles, hend⟩
    obtain ⟨rfl, -⟩ := does_specFiles hs hpaths
    have hfound := found_of_mem_owners hs hpaths hspecs
    obtain ⟨jobs, hjobs, rfl, hscripts⟩ := (does_compileSpecs hs (.refl _) hfound).1 hfiles
    exact ⟨specs, jobs, w₂, ⟨paths, hpaths, hspecs⟩, hjobs, hscripts, hend⟩
  · rintro ⟨specs, jobs, w₁, ⟨paths, hpaths, hspecs⟩, hjobs, hscripts, hend⟩
    have hfound := found_of_mem_owners hs hpaths hspecs
    have hfiles := (does_compileSpecs hs (.refl _) hfound).2 ⟨jobs, hjobs, rfl, hscripts⟩
    exact ⟨paths, w, specs, _, w₁, hpaths, hspecs, hfiles, hend⟩

end Doing

/-! Jobs that emit. -/

theorem file_of_testModule {r : Registry} {plan : Plan.Stored} {slug : String}
    {scenarios : List Plan.StoredScenario} {m : Emission.TestModule}
    (h : Emission.testModule r plan slug scenarios = .ok m) : m.file = Part.tests.file slug := by
  obtain ⟨source, -, hsource⟩ := bind_eq_ok.1 h
  dsimp only at hsource
  split at hsource
  all_goals
    obtain ⟨description, -, hdescription⟩ := bind_eq_ok.1 hsource
    obtain ⟨tests, -, htests⟩ := bind_eq_ok.1 hdescription
    rw [← Except.ok.inj htests]
    rfl

/-- Each part of the spec is settled, and the report tells whether there is a module. -/
structure Job.Full (j : Job) : Prop where
  parts : ∀ part, ∃ bytes, (part, bytes) ∈ j.work.changes
  output : ∀ bytes, (.tests, bytes) ∈ j.work.changes →
    j.report.output = bytes.map fun _ => Part.tests.file j.slug

theorem full_of_jobOf {root : Path} {r : Registry} {read : Path → Except FileError ByteArray}
    {c : Claimant} {job : Job} (h : jobOf root r true read c = .ok job) : job.Full := by
  obtain ⟨slug, report, work⟩ := job
  obtain ⟨rfl, hwork⟩ := jobOf_eq_ok.1 h
  generalize planOf (specName root c.path) (read c.path) = o at hwork
  cases o with
  | error f =>
    cases f with
    | problem p =>
      cases hwork
      refine ⟨fun part => ?_, by simp [Work.changes, FileReport.blank]⟩
      cases part <;> simp [Work.changes]
    | _ => cases hwork
  | ok plan =>
    obtain ⟨d, text, -, -, compiled, hcompiled, hmade⟩ := workOf_eq_ok.1 hwork
    cases hmade
    rcases emitted_cases hcompiled with rfl | ⟨m, hm, rfl⟩
    · refine ⟨fun part => ?_, by simp [Work.changes, testParts, planReport]⟩
      cases part <;> simp [Work.changes, testParts]
    · refine ⟨fun part => ?_, ?_⟩
      · cases part <;> simp [Work.changes, testParts]
      · simp [Work.changes, testParts, file_of_testModule hm]

end Acceptance.Project

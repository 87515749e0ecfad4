import Mathlib.Logic.Relation
import Acceptance.Proofs.Builds
import Acceptance.Proofs.Containment
/-!
Whatever a project has been through, compiling it leaves what compiling it from scratch leaves. The
directories that are written to stay tidy through all edits and runs, and from tidy directories a run
ends with just the files that its jobs come to. Jobs depend on specs and registry alone.
-/
namespace Acceptance.Project

open Script

theorem replyOf_of_ok {w v : World} {p : Path} {bytes : ByteArray} (h : replyOf w p = .ok bytes)
    (hdirs : ∀ m ∈ Tree.passed [] p.names, w.tree.get? m = some .dir → v.tree.get? m = some .dir)
    (hfile : v.tree.file? p.place = w.tree.file? p.place) : replyOf v p = .ok bytes := by
  have hread := replyOf_eq_ok h
  obtain ⟨l, hl, hbytes⟩ := Tree.read_eq_ok.1 hread
  obtain ⟨hsize, rfl, hfits, hway⟩ := Tree.locate_eq_ok.1 hl
  have hl' : v.tree.locate p = .ok p.place :=
    Tree.locate_eq_ok.2 ⟨hsize, rfl, hfits, fun m hm => hdirs m hm (hway m hm)⟩
  have hread' := Tree.read_eq_ok.2 ⟨_, hl', hfile.trans hbytes⟩
  rw [replyOf_congr (hread'.trans hread.symm), h]

theorem registryOf_of_ok {w v : World} {p : Path} {r : Registry}
    (h : registryOf p (replyOf w p) = .ok r)
    (hdirs : ∀ m ∈ Tree.passed [] p.names, w.tree.get? m = some .dir → v.tree.get? m = some .dir)
    (hfile : v.tree.file? p.place = w.tree.file? p.place) : registryOf p (replyOf v p) = .ok r := by
  cases hreply : replyOf w p with
  | ok bytes => rw [replyOf_of_ok hreply hdirs hfile, ← hreply, h]
  | error e =>
    rw [hreply] at h
    cases e <;> cases h

theorem does_compile_iff {root : Path} {settings : Settings} (s : Places root settings) {emit : Bool}
    {w w' : World} {report : Report String Nat} : (compile root settings emit).Does w report w' ↔
      (∃ r, registryOf s.registry (replyOf w s.registry) = .ok r ∧
        (compileAll root settings r emit).Does w report w') ∨
      ∃ p, registryOf s.registry (replyOf w s.registry) = .error (.problem p) ∧
        report = { errors := [p] } ∧ w' = w := by
  rw [compile_eq s, Does, run_bind_of_does (does_ask.2 (perform_read w s.registry)), ← Does]
  cases hr : registryOf s.registry (replyOf w s.registry) with
  | ok r => simp
  | error f =>
    cases f with
    | problem p => simp [does_done, eq_comm]
    | _ => simp [not_does_stop]

variable {paths : List Path}

/-- Where the registry and the specs are known, compiling is a run with them. -/
theorem exists_run_of_compile {root : Path} {settings : Settings} (s : Places root settings)
    {emit : Bool} {w w' : World} {r : Registry} {specs : List Claimant} {report : Report String Nat}
    (hw : w.tree.Sound) (hr : (readRegistry s.registry).Does w r w)
    (hpaths : (specFiles s.specs).Does w paths w) (hspecs : claimants s.specs paths = .ok specs)
    (h : (compile root settings emit).Does w report w') :
    ∃ jobs w₁, Run s r emit w specs jobs w₁ report w' := by
  have hr := (does_readRegistry.1 hr).1
  rcases (does_compile_iff s).1 h with ⟨r', hr', hall⟩ | ⟨p, hp, -⟩
  · obtain rfl := Except.ok.inj (hr.symm.trans hr')
    obtain ⟨together, hworkers⟩ := exists_workers hall
    obtain ⟨specs', jobs, w₁, hrun⟩ := (does_compileAll_iff s hworkers hw).1 hall
    obtain ⟨paths', hpaths', hspecs'⟩ := hrun.found
    obtain ⟨rfl, -⟩ := hpaths.unique hpaths'
    obtain rfl := Except.ok.inj (hspecs.symm.trans hspecs')
    exact ⟨jobs, w₁, hrun⟩
  · cases hr.symm.trans hp

namespace Site

open Places

variable {root : Path} {settings : Settings} {s : Site root settings} {r : Registry} {emit : Bool}
  {w w₁ w' v : World} {specs : List Claimant} {jobs : List Job} {report : Report String Nat}
  {t t' u : Tree} {m : Location} {p : Path}

theorem not_inside_specs (names : List String) : ¬s.Inside (s.specs.place ++ names) := by
  rintro (h | h)
  · rcases List.prefix_or_prefix_of_prefix h (List.prefix_append ..) with h | h
    · exact s.specs_plans.2 h
    · exact s.specs_plans.1 h
  · rcases List.prefix_or_prefix_of_prefix h (List.prefix_append ..) with h | h
    · exact s.specs_tests.2 h
    · exact s.specs_tests.1 h

theorem not_inside_registry : ¬s.Inside s.registry.place := by
  rintro (h | h)
  · exact s.registry_plans h
  · exact s.registry_tests h

/-! Edits. -/

/-- So is removing one. -/
theorem edit_of_remove (hs : t.Sound) (hm : ¬s.Inside p.place) (h : t.remove p = .ok t') :
    s.Edit t t' := by
  obtain ⟨l, hl, hfile, rfl⟩ := Tree.remove_eq_ok.1 h
  obtain rfl := Tree.locate_eq_place hl
  have hdir : t.get? p.place ≠ some .dir := fun hdir => hfile (Tree.file?_of_dir hdir)
  refine ⟨hs.erase hdir, fun m hm' => ?_, fun m hm' => ?_⟩
  · apply Tree.get?_erase_of_ne
    rintro rfl
    exact hm hm'
  · rw [Tree.get?_erase_of_ne, hm']
    rintro rfl
    exact hdir hm'

/-! Histories. -/

/-- What a project goes through: its specs and its registry are edited, and it is parsed or
compiled. -/
inductive Step (s : Site root settings) : World → World → Prop
  | edit {w w' : World} (h : s.Edit w.tree w'.tree) : s.Step w w'
  | parse {w w' : World} {parsed : List Parsed} (h : (parse root settings).Does w parsed w') :
    s.Step w w'
  | compile {w w' : World} {emit : Bool} {report : Report String Nat}
    (h : (compile root settings emit).Does w report w') : s.Step w w'

variable {parsed : List Parsed} {report' : Report String Nat}

theorem Tidy.parseSpecs (h : s.Tidy w.tree)
    (hslugs : ∀ p ∈ paths, ∃ slug, specSlug s.specs p = .ok slug)
    (hdoes : (paths.mapM (parseSpec root s.specs settings)).Does w parsed w') : s.Tidy w'.tree := by
  induction paths generalizing w parsed with
  | nil =>
    obtain ⟨-, rfl⟩ := does_mapM_nil.1 hdoes
    exact h
  | cons p paths ih =>
    obtain ⟨⟨slug, hslug⟩, hslugs⟩ := List.forall_mem_cons.1 hslugs
    obtain ⟨b, rest, w₁, hfirst, hrest, -⟩ := does_mapM_cons.1 hdoes
    refine ih ?_ hslugs hrest
    rw [parseSpec_eq s.toPlaces hslug] at hfirst
    obtain ⟨reply, w₂, hread, hmake⟩ := does_bind.1 hfirst
    cases (perform_read w p).symm.trans (does_ask.1 hread)
    obtain ⟨made, w₃, hmade, hwork⟩ := does_bind.1 hmake
    obtain ⟨hwell, rfl⟩ := does_ofOutcome.1 hmade
    obtain ⟨w₄, hscript, hend⟩ := does_seq.1 hwork
    obtain ⟨-, rfl⟩ := does_pure.1 hend
    exact h.work (marked_of_parseWorkOf hwell) hscript

theorem Tidy.parse (h : s.Tidy w.tree) (hdoes : (Project.parse root settings).Does w parsed w') :
    s.Tidy w'.tree := by
  obtain ⟨dir, w₁, hplace, hrest⟩ := does_bind.1 hdoes
  obtain ⟨hdir, rfl⟩ := does_ofFit.1 hplace
  obtain rfl := Except.ok.inj (s.specs_eq.symm.trans hdir)
  obtain ⟨paths, w₂, hpaths, hparse⟩ := does_bind.1 hrest
  obtain ⟨rfl, hfound⟩ := does_specFiles h.sound hpaths
  exact h.parseSpecs (fun p hp => (hfound p hp).exists_slug) hparse

theorem exists_run (s : Site root settings) (hs : w.tree.Sound)
    (h : (compileAll root settings r emit).Does w report w') :
    ∃ specs jobs w₁, Run s.toPlaces r emit w specs jobs w₁ report w' := by
  obtain ⟨together, hworkers⟩ := exists_workers h
  exact (does_compileAll_iff s.toPlaces hworkers hs).1 h

theorem Tidy.step (h : s.Tidy w.tree) (hstep : s.Step w w') : s.Tidy w'.tree := by
  cases hstep with
  | edit he => exact h.edit he
  | parse hdoes => exact h.parse hdoes
  | compile hdoes =>
    rcases (does_compile_iff s.toPlaces).1 hdoes with ⟨r, -, hall⟩ | ⟨p, -, -, rfl⟩
    · obtain ⟨specs, jobs, w₁, hrun⟩ := exists_run s h.sound hall
      exact h.run hrun
    · exact h

theorem Tidy.history (h : s.Tidy w.tree) (hsteps : Relation.ReflTransGen s.Step w w') :
    s.Tidy w'.tree := by
  induction hsteps with
  | refl => exact h
  | tail _ hstep ih => exact ih.step hstep

/-! Runs in other trees with the same specs. -/

/-- Where less is in the way and only specs with jobs have files, the same jobs are done, and nothing
has to be pruned. -/
theorem exists_run_under (hw : s.Tidy w.tree) (hv : s.Tidy v.tree)
    (hu : Tree.Under s.Way v.tree w.tree) (hsame : SameSpecs s.specs w.tree v.tree)
    (hrun : Run s.toPlaces r true w specs jobs w₁ report w')
    (hrest : ∀ part slug, slug ∉ jobs.map (·.slug) → v.tree.file? (s.path part slug).place = none) :
    ∃ v', Run s.toPlaces r true v specs jobs v' { files := report.files } v' := by
  obtain ⟨paths, hpaths, hspecs⟩ := hrun.found
  have hpaths' : (specFiles s.specs).Does v paths v := by
    obtain ⟨-, b, hdir, -⟩ := does_specFiles_iff.1 hpaths
    obtain ⟨b', hdir', -⟩ := does_isDir_of_dirs hdir fun m _ => hu.dirs m
    exact hsame.does_specFiles hw.sound hv.sound hpaths hdir'
  have hdecided : (owners [] specs).mapM (jobOf root r true (replyOf v)) = .ok jobs := by
    have hfound := found_of_mem_owners hw.sound hpaths hspecs
    rw [← hrun.decided]
    exact mapM_jobOf_congr fun c hc => hsame.replyOf_eq hw.sound hv.sound (hfound c hc).1
  obtain ⟨v', hdone, hu'⟩ := does_jobs_under hu hw hv hrun.marked hrun.done
  obtain ⟨-, htidy⟩ := hw.sets_jobs hrun.marked hrun.nodup hrun.done
  obtain ⟨hset, htidy'⟩ := hv.sets_jobs hrun.marked hrun.nodup hdone
  obtain ⟨pruned, w₂, htests, hplans, rfl⟩ := (finishes_iff hrun.slugs).1 hrun.ended
  have hpruned := htidy.pruned_tests htests
  have htests' := does_pruneTests_under (sweeps_pruneTests htests) hu'.dirs
    fun slug => mem_outputs_of_file? hset hrest hrun.full
  have hplans' := does_prunePlans_under (sweeps_prunePlans hplans)
    (fun m hm => hpruned.get?_dir.2 (hu'.dirs m hm)) fun slug => mem_plans_of_file? hset hrest
  refine ⟨v', ⟨paths, hpaths', hspecs⟩, hdecided, hdone, ?_⟩
  exact (finishes_iff hrun.slugs).2 ⟨[], v', htests', hplans', rfl⟩

/-- The tree has the same specs and the same registry, and nothing in the directories that are
written to. Nothing is in the way that is not in the way in the other tree. -/
structure Fresh (s : Site root settings) (t u : Tree) : Prop where
  sound : u.Sound
  empty : ∀ m, s.Inside m → u.file? m = none
  specs : ∀ names, IsSpecPlace (s.specs.place ++ names) →
    u.file? (s.specs.place ++ names) = t.file? (s.specs.place ++ names)
  registry : u.file? s.registry.place = t.file? s.registry.place
  files : ∀ m, s.Way m → u.file? m ≠ none → t.file? m ≠ none
  dirs : ∀ m, u.get? m = some .dir → t.get? m = some .dir
  ways : ∀ m, m ∈ s.specs.trail ∨ m ∈ Tree.passed [] s.registry.names →
    t.get? m = some .dir → u.get? m = some .dir

namespace Fresh

theorem tidy (h : s.Fresh t u) : s.Tidy u := tidy_of_empty h.sound h.empty

theorem under (h : s.Fresh t u) : Tree.Under s.Way u t := ⟨h.dirs, h.files⟩

theorem sameSpecs (h : s.Fresh t u) : SameSpecs s.specs t u := by
  refine ⟨⟨fun hleads => ?_, fun hleads => ?_⟩, fun names hspec => (h.specs names hspec).symm⟩
  · exact hleads.mono fun l hl => h.ways l (.inl hl)
  · exact hleads.mono fun l _ => h.dirs l

end Fresh

instance : DecidablePred s.Inside := fun _ => inferInstanceAs (Decidable (_ ∨ _))

/-- Taking all files out of the directories that are written to makes a tree fresh. -/
theorem fresh_withoutFiles (hs : t.Sound) : s.Fresh t (t.withoutFiles s.Inside) := by
  have hout : ∀ {m}, ¬s.Inside m → (t.withoutFiles s.Inside).file? m = t.file? m := fun hm => by
    rw [Tree.file?_withoutFiles hs, if_neg hm]
  refine ⟨hs.withoutFiles, fun m hm => ?_, fun names _ => hout (not_inside_specs names),
    hout not_inside_registry, fun m _ hfile => ?_, fun m => (Tree.get?_withoutFiles_dir hs).1,
    fun m _ => (Tree.get?_withoutFiles_dir hs).2⟩
  · rw [Tree.file?_withoutFiles hs, if_pos hm]
  · rw [Tree.file?_withoutFiles hs] at hfile
    split at hfile
    · exact absurd rfl hfile
    · exact hfile

/-- A run changes nothing about the specs. -/
theorem Tidy.sameSpecs (h : s.Tidy w.tree)
    (hrun : Run s.toPlaces r true w specs jobs w₁ report w') : SameSpecs s.specs w.tree w'.tree := by
  refine ⟨⟨fun hleads => hleads.mono fun l _ => h.dirs hrun, fun hleads => ?_⟩,
    fun names _ => (h.outside hrun (not_inside_specs names)).symm⟩
  obtain ⟨paths, hpaths, hspecs⟩ := hrun.found
  obtain ⟨-, b, hdir, rfl⟩ := does_specFiles_iff.1 hpaths
  cases b with
  | true =>
    obtain ⟨-, -, hstat⟩ := does_isDir_true.1 hdir
    exact (Tree.stat_eq_dir.1 hstat).2
  | false =>
    -- there are no specs, so there is no job that could have made the directory
    cases hspecs
    cases hrun.decided
    exact hleads.mono fun l _ hl => (h.fresh hrun hl).resolve_right fun hnew => hnew.1 rfl

/-- After a run there are the same specs with the same jobs. -/
theorem Tidy.again (h : s.Tidy w.tree) (hrun : Run s.toPlaces r true w specs jobs w₁ report w')
    {specs' : List Claimant} {jobs' : List Job} {v₁ v' : World}
    (hrun' : Run s.toPlaces r true w' specs' jobs' v₁ report' v') :
    specs' = specs ∧ jobs' = jobs := by
  have hsame := h.sameSpecs hrun
  have hsound := (h.run hrun).sound
  obtain ⟨paths, hpaths, hspecs⟩ := hrun.found
  obtain ⟨paths', hpaths', hspecs'⟩ := hrun'.found
  obtain ⟨-, b, hdir, -⟩ := does_specFiles_iff.1 hpaths'
  obtain ⟨rfl, -⟩ := hpaths'.unique (hsame.does_specFiles h.sound hsound hpaths hdir)
  obtain rfl := Except.ok.inj (hspecs'.symm.trans hspecs)
  have hfound := found_of_mem_owners h.sound hpaths hspecs
  have hjobs : (owners [] specs').mapM (jobOf root r true (replyOf w')) = .ok jobs := by
    rw [← hrun.decided]
    exact mapM_jobOf_congr fun c hc => hsame.replyOf_eq h.sound hsound (hfound c hc).1
  exact ⟨rfl, Except.ok.inj (hrun'.decided.symm.trans hjobs)⟩

/-- A second run changes nothing. -/
theorem Tidy.same_of_again (h : s.Tidy w.tree)
    (hrun : Run s.toPlaces r true w specs jobs w₁ report w') {v₁ v' : World}
    (hrun' : Run s.toPlaces r true w' specs jobs v₁ report' v') :
    (∀ m, v'.tree.file? m = w'.tree.file? m) ∧ report'.files = report.files ∧
      report'.pruned = [] := by
  have hbuilt := h.built hrun
  refine ⟨fun m => ?_, hrun'.ended.files.1.trans hrun.ended.files.1.symm, ?_⟩
  · by_cases hm : s.Inside m
    · exact (hbuilt.tidy.built hrun').file?_eq hrun.full hbuilt hm
    · exact hbuilt.tidy.outside hrun' hm
  · obtain ⟨hset, htidy⟩ := hbuilt.tidy.sets_jobs hrun'.marked hrun'.nodup hrun'.done
    obtain ⟨pruned, v₂, htests, -, rfl⟩ := (finishes_iff hrun'.slugs).1 hrun'.ended
    have hidle := does_pruneTests_under (sweeps_pruneTests htests)
      (fun m hm => hm) fun slug => mem_outputs_of_file? hset hbuilt.rest hrun.full
    exact (htests.unique hidle).1

/-- If the directories were there already, there is a second run. -/
theorem Tidy.exists_again (h : s.Tidy w.tree)
    (hrun : Run s.toPlaces r true w specs jobs w₁ report w') (hplans : w.tree.Leads s.plans)
    (htests : w.tree.Leads s.tests) :
    ∃ v', Run s.toPlaces r true w' specs jobs v' { files := report.files } v' := by
  have hbuilt := h.built hrun
  have hway : ∀ m, s.Way m → w.tree.get? m = some .dir := by
    rintro m (hm | hm)
    · exact hplans.way m hm
    · exact htests.way m hm
  refine exists_run_under h hbuilt.tidy ⟨fun m hm => ?_, fun m hm hfile => ?_⟩
    (h.sameSpecs hrun) hrun hbuilt.rest
  · exact (h.fresh hrun hm).elim id fun hnew => hway m hnew.2
  · exact absurd (Tree.file?_of_dir (h.dirs hrun (hway m hm))) hfile

theorem Tidy.registryOf_eq (h : s.Tidy w.tree)
    (hrun : Run s.toPlaces r true w specs jobs w₁ report w')
    (hr : registryOf s.registry (replyOf w s.registry) = .ok r) :
    registryOf s.registry (replyOf w' s.registry) = .ok r :=
  registryOf_of_ok hr (fun _ _ => h.dirs hrun) (h.outside hrun not_inside_registry)

theorem Fresh.registryOf_eq (h : s.Fresh w.tree v.tree)
    (hr : registryOf s.registry (replyOf w s.registry) = .ok r) :
    registryOf s.registry (replyOf v s.registry) = .ok r :=
  registryOf_of_ok hr (fun m hm => h.ways m (.inr hm)) h.registry

theorem does_compile_of_run {together : Bool} (hworkers : severalWorkers settings = .ok together)
    (hs : w.tree.Sound) (hr : registryOf s.registry (replyOf w s.registry) = .ok r)
    (hrun : Run s.toPlaces r emit w specs jobs w₁ report w') :
    (Project.compile root settings emit).Does w report w' :=
  (does_compile_iff s.toPlaces).2
    (.inl ⟨r, hr, (does_compileAll_iff s.toPlaces hworkers hs).2 ⟨specs, jobs, w₁, hrun⟩⟩)

end Site

/-- Compiling a project after any history leaves what compiling it from scratch leaves, and reports
the same of its specs. Compiling it once more changes no file and prunes nothing; it goes through if
the directories were there before. -/
theorem compile_eq_compile_fresh {root : Path} {settings : Settings} (s : Site root settings)
    {w₀ w w' : World} (hsound : w₀.tree.Sound) (hempty : ∀ m, s.Inside m → w₀.tree.file? m = none)
    (hsteps : Relation.ReflTransGen s.Step w₀ w) {report : Report String Nat}
    (hlast : (compile root settings true).Does w report w') (hregistry : report.errors = []) :
    (∀ v, s.Fresh w.tree v.tree →
      ∃ v', (compile root settings true).Does v { files := report.files } v' ∧
        ∀ m, s.Inside m → w'.tree.file? m = v'.tree.file? m) ∧
    (∀ again w₂, (compile root settings true).Does w' again w₂ →
      (∀ m, w₂.tree.file? m = w'.tree.file? m) ∧ again.files = report.files ∧ again.pruned = []) ∧
    (w.tree.Leads s.plans → w.tree.Leads s.tests →
      ∃ again w₂, (compile root settings true).Does w' again w₂) := by
  have htidy := (Site.tidy_of_empty hsound hempty).history hsteps
  rcases (does_compile_iff s.toPlaces).1 hlast with ⟨r, hr, hall⟩ | ⟨p, -, rfl, -⟩
  · obtain ⟨together, hworkers⟩ := exists_workers hall
    obtain ⟨specs, jobs, w₁, hrun⟩ := Site.exists_run s htidy.sound hall
    have hbuilt := htidy.built hrun
    have hr' := htidy.registryOf_eq hrun hr
    refine ⟨fun v hfresh => ?_, fun again w₂ hagain => ?_, fun hplans htests => ?_⟩
    · obtain ⟨v', hrun'⟩ := Site.exists_run_under htidy hfresh.tidy hfresh.under hfresh.sameSpecs
        hrun fun part slug _ => hfresh.empty _ Site.inside_place
      refine ⟨v', Site.does_compile_of_run hworkers hfresh.sound (hfresh.registryOf_eq hr) hrun',
        fun m hm => ?_⟩
      exact hbuilt.file?_eq hrun.full (hfresh.tidy.built hrun') hm
    · rcases (does_compile_iff s.toPlaces).1 hagain with ⟨r', hr'', hall'⟩ | ⟨p, hp, -⟩
      · obtain rfl := Except.ok.inj (hr''.symm.trans hr')
        obtain ⟨specs', jobs', v₁, hrun'⟩ := Site.exists_run s hbuilt.tidy.sound hall'
        obtain ⟨rfl, rfl⟩ := htidy.again hrun hrun'
        exact htidy.same_of_again hrun hrun'
      · cases hp.symm.trans hr'
    · obtain ⟨w₂, hrun'⟩ := htidy.exists_again hrun hplans htests
      exact ⟨_, w₂, Site.does_compile_of_run hworkers hbuilt.tidy.sound hr' hrun'⟩
  · cases hregistry

/-! A spec that is taken away. -/

def usualSite : Site here {} where
  toPlaces := usual here
  specs_plans := ⟨by decide +kernel, by decide +kernel⟩
  specs_tests := ⟨by decide +kernel, by decide +kernel⟩
  plans_tests := ⟨by decide +kernel, by decide +kernel⟩
  registry_plans := by decide +kernel
  registry_tests := by decide +kernel

/-- A spec that fits no template of the registry. -/
def leapText : String := "WHEN leap.\nTHEN land.\n"

def leaps : World := twoSpecs (Text.encode leapText)

/-- The project after both specs are parsed. -/
def parsedLeaps : World :=
  (([firstSpec.path, secondSpec.path].mapM (parseSpec here (usual here).specs {})).run leaps).2

/-- The same with the second spec taken away. -/
def orphaned : World := { parsedLeaps with tree := parsedLeaps.tree.erase secondSpec.path.place }

/-- The same with a new plan for the first spec. -/
def replanned : World :=
  ((([firstSpec].map (·.path)).mapM (compileSpec here {} (tallied here) true)).run orphaned).2

/-- The same without the plan of the second spec. -/
def pruned : World := ((remove ((usual here).path .plan "second")).run replanned).2

theorem exists_parse_leaps : ∃ parsed, (parse here {}).Does leaps parsed parsedLeaps := by
  have hok : (([firstSpec.path, secondSpec.path].mapM (parseSpec here (usual here).specs {})).run
      leaps).1.isOk = true := by decide +kernel
  obtain ⟨parsed, hparsed⟩ := exists_does_of_isOk hok
  refine ⟨parsed, does_bind.2 ⟨_, leaps, does_ofFit.2 ⟨(usual here).specs_eq, rfl⟩, ?_⟩⟩
  exact does_bind.2 ⟨_, leaps, does_specFiles_twoSpecs _, hparsed⟩

/-- No test comes from a spec that fits no template. -/
theorem exists_plan_work (r : Registry) (slug name : String) (reply : Except FileError ByteArray)
    (h : (workOf r true slug name (planOf name reply)).toOption.map
      (fun made => (made.1.parsed, made.1.output)) = some (1, none)) :
    ∃ file text, file.output = none ∧ workOf r true slug name (planOf name reply) =
      .ok (file, .write [(.plan, text)] [.tests, .manifest]) := by
  obtain ⟨⟨file, work⟩, hmade, hreport⟩ := Option.map_eq_some_iff.1 h
  obtain ⟨hparsed, houtput⟩ := Prod.mk.inj hreport
  have hmade := eq_ok_of_toOption hmade
  rcases workOf_cases hmade with ⟨hnothing, -⟩ | ⟨_, _, text, -, -, -, ⟨-, hwrite⟩ | ⟨_, -, hsome, -⟩⟩
  · cases hparsed.symm.trans hnothing
  · cases hwrite
    exact ⟨file, text, houtput, hmade⟩
  · cases houtput.symm.trans hsome

/-- The plan of the second spec goes away. -/
theorem does_prunePlans_second (h : usualSite.Tidy replanned.tree) :
    (prunePlans (usual here).plans ["first.json"]).Does replanned () pruned := by
  obtain ⟨hlist, hstat, hthere, hremove⟩ : replanned.tree.listBelow (usual here).plans =
      [(["first.json"], .file), (["second.json"], .file)] ∧
        replanned.tree.stat (usual here).plans = .ok (some .dir) ∧
          (replyOf replanned ((usual here).path .plan "second")).toOption.isSome = true ∧
            ((remove ((usual here).path .plan "second")).run replanned).1.isOk = true := by
    decide +kernel
  have hchildren : (childrenNamed "" ".json" (usual here).plans).Does replanned
      [(usual here).path .plan "first", (usual here).path .plan "second"] replanned := by
    refine does_bind.2 ⟨_, _, does_listBelow.2 ⟨hlist, rfl⟩, does_pure.2 ⟨?_, rfl⟩⟩
    exact List.mergeSort_of_pairwise (by decide +kernel)
  have hfirst : (prunePlan ["first.json"] ((usual here).path .plan "first")).Does replanned ()
      replanned := by
    rw [prunePlan, if_pos (by decide +kernel)]
    exact does_pure.2 ⟨rfl, rfl⟩
  have hsecond : (prunePlan ["first.json"] ((usual here).path .plan "second")).Does replanned ()
      pruned := by
    obtain ⟨bytes, hbytes⟩ := Option.isSome_iff_exists.1 hthere
    obtain ⟨l, hl, hfile⟩ := Tree.read_eq_ok.1 (replyOf_eq_ok (eq_ok_of_toOption hbytes))
    rw [Tree.locate_eq_place hl] at hfile
    have howns : usualSite.Owns replanned.tree .plan "second" bytes := h.owns hfile
    have hlook : (isPlanFile ((usual here).path .plan "second")).Does replanned true replanned := by
      refine does_isPlanFile.2 ⟨?_, rfl⟩
      rw [eq_ok_of_toOption hbytes]
      exact planFileOf_of_isPlanBytes howns.bears
    rw [prunePlan, if_neg (by decide +kernel)]
    exact does_bind.2 ⟨true, _, hlook, (exists_does_of_isOk hremove).choose_spec⟩
  refine does_bind.2 ⟨true, _, does_isDir_true.2 ⟨rfl, by decide +kernel, hstat⟩, does_bind.2 ⟨_, _, hchildren, ?_⟩⟩
  exact does_forM_cons.2 ⟨_, hfirst, does_forM_cons.2 ⟨_, hsecond, does_forM_nil.2 rfl⟩⟩

theorem exists_compile_first (h : usualSite.Tidy orphaned.tree) :
    ∃ file, (compile here {} true).Does orphaned { files := [file] } pruned := by
  obtain ⟨hok, hnone, hstat, hspecs, hreply⟩ : ((([firstSpec].map (·.path)).mapM
      (compileSpec here {} (tallied here) true)).run orphaned).1.isOk = true ∧
        replanned.tree.stat (usual here).tests = .ok none ∧
          orphaned.tree.stat (usual here).specs = .ok (some .dir) ∧
            specsBelow orphaned.tree (usual here).specs = [firstSpec.path] ∧
              (replyOf orphaned (usual here).registry).toOption = some (Text.encode tallyText) := by
    decide +kernel
  obtain ⟨files, hfiles⟩ := exists_does_of_isOk hok
  have hpaths : (specFiles (usual here).specs).Does orphaned [firstSpec.path] orphaned :=
    does_specFiles_of_sorted (does_isDir_true.2 ⟨rfl, by decide +kernel, hstat⟩) hspecs
      (List.pairwise_singleton ..)
  have hclaimants : claimants (usual here).specs [firstSpec.path] = .ok [firstSpec] := rfl
  have hfound := found_of_mem_owners h.sound hpaths hclaimants
  obtain ⟨jobs, hjobs, -, hdone⟩ := (does_compileSpecs h.sound (.refl _) hfound).1 hfiles
  obtain ⟨job, _, hjob, hrest, rfl⟩ := mapM_cons_eq_ok.1 hjobs
  cases hrest
  have hslug : job.slug = "first" := (jobOf_eq_ok.1 hjob).1
  have htidy := (h.sets_jobs (marked_of_mapM_jobOf hjobs) (List.nodup_singleton _) hdone).2
  have htests : (pruneTests (usual here).tests ([job].filterMap (·.report.output))).Does replanned []
      replanned := by
    refine does_bind.2 ⟨false, _, does_isDir.2 ⟨rfl, ?_⟩, does_pure.2 ⟨rfl, rfl⟩⟩
    rw [if_neg (by decide +kernel)]
    exact ⟨none, hnone, rfl⟩
  have hplans : (prunePlans (usual here).plans ([job].map fun j => Part.plan.file j.slug)).Does
      replanned () pruned := by
    rw [List.map_singleton, hslug]
    exact does_prunePlans_second htidy
  exact ⟨job.report, Site.does_compile_of_run (s := usualSite) rfl h.sound
    ((congrArg _ (eq_ok_of_toOption hreply)).trans registryOf_tally) ⟨⟨_, hpaths, hclaimants⟩, hjobs,
      hdone, (finishes_iff (slug_of_mapM_jobOf hjobs)).2 ⟨[], _, htests, hplans, rfl⟩⟩⟩

theorem inside_leaps (m : Location) (hm : usualSite.Inside m) : leaps.tree.file? m = none := by
  cases hfile : leaps.tree.file? m with
  | none => rfl
  | some bytes =>
    have hne : m ≠ [] := by
      rintro rfl
      cases hfile
    have hmem := Tree.mem_of_get? hne (Tree.file?_eq_some.1 hfile)
    have hout : ∀ m ∈ leaps.tree.entries.map (·.1), ¬usualSite.Inside m := by decide +kernel
    exact absurd hm (hout m (List.mem_map_of_mem hmem))

/-- Two specs are parsed, one is taken away, and the project is compiled: the plan that is left goes
away, and the other is as it is when the project is compiled without any plans. -/
theorem compile_eq_compile_fresh_leaps :
    ∃ w w' file, Relation.ReflTransGen usualSite.Step leaps w ∧
    (compile here {} true).Does w { files := [file] } w' ∧
    w.tree.file? [".gwt", "ir", "second.json"] ≠ none ∧
    w'.tree.file? [".gwt", "ir", "second.json"] = none ∧
    w'.tree.file? [".gwt", "ir", "first.json"] ≠ none ∧
    ∃ v', (compile here {} true).Does { tree := w.tree.withoutFiles usualSite.Inside }
        { files := [file] } v' ∧
      ∀ m, usualSite.Inside m → w'.tree.file? m = v'.tree.file? m := by
  obtain ⟨parsed, hparse⟩ := exists_parse_leaps
  have hstart : leaps.tree.Sound := sound_twoSpecs _
  have htidy := (Site.tidy_of_empty hstart inside_leaps).parse hparse
  have houtside : ¬usualSite.Inside secondSpec.path.place := Site.not_inside_specs ["second.gwt"]
  have hremove : parsedLeaps.tree.remove secondSpec.path = .ok orphaned.tree :=
    Tree.remove_eq_ok.2 ⟨_, eq_ok_of_toOption (by decide +kernel), by decide +kernel, rfl⟩
  have hedit : usualSite.Edit _ orphaned.tree := Site.edit_of_remove htidy.sound houtside hremove
  have hsteps : Relation.ReflTransGen usualSite.Step leaps orphaned :=
    .tail (.single (.parse hparse)) (.edit hedit)
  obtain ⟨file, hlast⟩ := exists_compile_first (htidy.edit hedit)
  obtain ⟨hclean, -⟩ := compile_eq_compile_fresh usualSite hstart inside_leaps hsteps hlast rfl
  obtain ⟨v', hdoes, hsame⟩ := hclean ⟨_, _, _, _⟩ (Site.fresh_withoutFiles hedit.sound)
  obtain ⟨hthere, hgone, hfirst⟩ : orphaned.tree.file? [".gwt", "ir", "second.json"] ≠ none ∧
      pruned.tree.file? [".gwt", "ir", "second.json"] = none ∧
        pruned.tree.file? [".gwt", "ir", "first.json"] ≠ none := by decide +kernel
  exact ⟨_, _, file, hsteps, hlast, hthere, hgone, hfirst, v', hdoes, hsame⟩

end Acceptance.Project

import Acceptance.Proofs.Jobs
/-!
What a build leaves. In tidy directories the files of the specs are in the end just those that the
jobs come to, whatever was there before.
-/
namespace Acceptance

namespace Script

variable {α : Type} {w w' : World} {p : Path}

theorem does_forM_append {f : α → Script PUnit} {as bs : List α} :
    ((as ++ bs).forM f).Does w ⟨⟩ w' ↔
      ∃ w₁, (as.forM f).Does w ⟨⟩ w₁ ∧ (bs.forM f).Does w₁ ⟨⟩ w' := by
  rw [List.forM_eq_forM, List.forM_append, does_seq]

theorem does_writeGroup_nil {stale : List Path} :
    (writeGroup [] stale).Does w () w' ↔ (stale.forM removeIfThere).Does w () w' := by
  have hput : ∀ w₁, (putGroup []).Does w () w₁ ↔ w = w₁ := by
    intro w₁
    rw [putGroup, List.mergeSort_nil, stageAll, pure_bind]
    exact does_forM_nil
  simp only [does_writeGroup, hput, List.any_nil, Bool.not_false, List.filter_true]
  constructor
  · rintro ⟨w₁, rfl, h⟩
    exact h
  · exact fun h => ⟨w, rfl, h⟩

/-- A group is staged in order and then swapped in. -/
theorem does_putGroup_of_steps {files sorted : List (Path × String)} {staged : List Staged}
    {w w₁ w' : World} (hsorted : (files.mergeSort fun a b => a.1.le b.1) = sorted)
    (hstages : (sorted.mapM fun f => stage f.1 f.2).Does w staged w₁)
    (hswaps : (staged.forM swapIn).Does w₁ () w') : (putGroup files).Does w () w' := by
  rw [putGroup, hsorted]
  exact does_bind.2 ⟨staged, w₁, does_stageAll.2 ⟨staged, hstages, rfl⟩, hswaps⟩

/-- A group of one file is staged and swapped in. -/
theorem does_writeGroup_one {p : Path} {text : String} {stale : List Path} {staged : Staged}
    {w w₁ w₂ w' : World} (hstage : (stage p text).Does w staged w₁)
    (hswap : (swapIn staged).Does w₁ () w₂)
    (hstale : ((stale.filter fun q => !decide (p = q)).forM removeIfThere).Does w₂ () w') :
    (writeGroup [(p, text)] stale).Does w () w' := by
  refine does_writeGroup.2 ⟨w₂, ?_, by simpa using hstale⟩
  apply does_putGroup_of_steps (List.mergeSort_singleton _)
  · exact does_mapM_cons.2 ⟨staged, [], w₁, hstage, does_mapM_nil.2 ⟨rfl, rfl⟩, rfl⟩
  · exact does_forM_cons.2 ⟨w₂, hswap, does_forM_nil.2 rfl⟩

/-- A file that can be found can be removed. -/
theorem exists_removeIfThere (hp : p.Proper) (hreach : w.tree.Reaches p)
    (hfile : w.tree.file? p.place ≠ none) : ∃ w', (removeIfThere p).Does w () w' := by
  obtain ⟨hleads, husable⟩ := hreach hfile
  have hl := (Tree.locate_of_proper hp).2 ⟨rfl, hleads, husable.size, husable.name⟩
  exact exists_removal_of_locate husable.flaw hl fun hdir => hfile (Tree.file?_of_dir hdir)

end Script

namespace Project

open Script

namespace Site

open Places

variable {root : Path} {settings : Settings} {s : Site root settings} {slug : String} {work : Work}
  {jobs : List Job} {w w' v : World}

/-! Jobs succeed where less is in the way. -/

theorem does_drop_under (hu : Tree.Under s.Way v.tree w.tree) (hw : s.Tidy w.tree)
    (hv : s.Tidy v.tree) (h : (Work.drop.script s.toPlaces slug).Does w () w') :
    ∃ v', (Work.drop.script s.toPlaces slug).Does v () v' := by
  obtain ⟨b, w₁, hlook, hgroup⟩ := does_bind.1 h
  obtain ⟨-, rfl⟩ := does_isPlanFile.1 hlook
  obtain ⟨w₂, hfirst, -⟩ := does_forM_append.1 (does_writeGroup_nil.1 hgroup)
  have hproper : ∀ p ∈ [Part.tests, .manifest].map (s.path · slug), p.Proper :=
    List.forall_mem_map.2 fun part _ => proper_path
  have hreach : ∀ p ∈ [Part.tests, .manifest].map (s.path · slug), v.tree.Reaches p :=
    List.forall_mem_map.2 fun part _ => hv.reaches
  obtain ⟨v₁, hfirst'⟩ := does_removals_under hu hproper
    (List.forall_mem_map.2 fun part _ l hl => way_of_mem hl)
    (List.forall_mem_map.2 fun part _ => hw.reaches) hreach hfirst
  have hset := sets_removals hproper hreach hfirst'
  -- whether the plan has to be removed too depends on the tree
  cases hfile : v.tree.file? (s.path .plan slug).place with
  | none =>
    obtain ⟨e, hreply, -⟩ := replyOf_of_none hfile
    have hlook' : (isPlanFile (s.path .plan slug)).Does v false v := by
      rw [does_isPlanFile, hreply]
      exact ⟨planFileOf_of_error e, rfl⟩
    exact ⟨v₁, does_bind.2 ⟨false, v, hlook', does_writeGroup_nil.2 hfirst'⟩⟩
  | some bytes =>
    have hlook' : (isPlanFile (s.path .plan slug)).Does v true v := by
      rw [does_isPlanFile, hv.replyOf_eq hfile]
      exact ⟨planFileOf_of_isPlanBytes (hv.owns hfile).bears, rfl⟩
    have hthere : v₁.tree.file? (s.path .plan slug).place ≠ none := by
      rw [hset.kept, hfile]
      · simp
      · simp [place_eq_iff]
    obtain ⟨v₂, hplan⟩ := exists_removeIfThere proper_path
      (reaches_of_sets hset (by simp) hv.reaches) hthere
    refine ⟨v₂, does_bind.2 ⟨true, v, hlook', does_writeGroup_nil.2 ?_⟩⟩
    exact does_forM_append.2 ⟨v₁, hfirst', does_forM_cons.2 ⟨v₂, hplan, does_forM_nil.2 rfl⟩⟩

theorem does_work_under (hu : Tree.Under s.Way v.tree w.tree) (hw : s.Tidy w.tree)
    (hv : s.Tidy v.tree) (hmarked : work.Marked) (h : (work.script s.toPlaces slug).Does w () w') :
    ∃ v', (work.script s.toPlaces slug).Does v () v' := by
  cases work with
  | write files stale =>
    refine does_writeGroup_under hu (hw.groupFits hmarked.parts stale)
      (hv.groupFits hmarked.parts stale) ?_ ?_ h
    · exact List.forall_mem_map.2 fun f _ l hl => way_of_mem hl
    · exact List.forall_mem_map.2 fun part _ l hl => way_of_mem hl
  | drop => exact does_drop_under hu hw hv h
  | rest => exact ⟨v, does_pure.2 ⟨rfl, rfl⟩⟩

/-- What jobs set. -/
def jobChanges (s : Site root settings) (jobs : List Job) : Changes :=
  jobs.flatMap fun j => s.ofSlug j.slug j.work.changes

theorem mem_jobChanges {c : Path × Option ByteArray} : c ∈ s.jobChanges jobs ↔
    ∃ j ∈ jobs, ∃ f ∈ j.work.changes, c = (s.path f.1 j.slug, f.2) := by
  simp only [jobChanges, ofSlug, List.mem_flatMap, List.mem_map, eq_comm]

/-- Jobs for different specs do not get in each other's way. -/
theorem Tidy.sets_jobs (h : s.Tidy w.tree) (hmarked : ∀ j ∈ jobs, j.work.Marked)
    (hslugs : (jobs.map (·.slug)).Nodup) (hdoes : (jobs.forM (Job.script s.toPlaces)).Does w () w') :
    w.tree.Sets w'.tree (s.jobChanges jobs) ∧ s.Tidy w'.tree := by
  induction jobs generalizing w with
  | nil =>
    obtain rfl := does_forM_nil.1 hdoes
    exact ⟨.refl _, h⟩
  | cons j jobs ih =>
    obtain ⟨hj, hjobs⟩ := List.forall_mem_cons.1 hmarked
    obtain ⟨hslug, hslugs⟩ := List.nodup_cons.1 hslugs
    obtain ⟨w₁, hfirst, hrest⟩ := does_forM_cons.1 hdoes
    have hset := h.sets_work hj hfirst
    obtain ⟨hsets, htidy⟩ := ih (h.work hj hfirst) hjobs hslugs hrest
    refine ⟨hset.append hsets fun a ha b hb hplace => ?_, htidy⟩
    obtain ⟨f, -, rfl⟩ := List.mem_map.1 ha
    obtain ⟨j', hj', f', -, rfl⟩ := mem_jobChanges.1 hb
    have hsame := (path_injective hplace).2
    exact absurd (List.mem_map.2 ⟨j', hj', hsame.symm⟩) hslug

theorem does_jobs_under (hu : Tree.Under s.Way v.tree w.tree) (hw : s.Tidy w.tree)
    (hv : s.Tidy v.tree) (hmarked : ∀ j ∈ jobs, j.work.Marked)
    (h : (jobs.forM (Job.script s.toPlaces)).Does w () w') :
    ∃ v', (jobs.forM (Job.script s.toPlaces)).Does v () v' ∧ Tree.Under s.Way v'.tree w'.tree := by
  induction jobs generalizing w v with
  | nil =>
    obtain rfl := does_forM_nil.1 h
    exact ⟨v, does_forM_nil.2 rfl, hu⟩
  | cons j jobs ih =>
    obtain ⟨hj, hjobs⟩ := List.forall_mem_cons.1 hmarked
    obtain ⟨w₁, hfirst, hrest⟩ := does_forM_cons.1 h
    obtain ⟨v₁, hfirst'⟩ := does_work_under hu hw hv hj hfirst
    have hu₁ := hu.sets (hv.sets_work hj hfirst') (hw.sets_work hj hfirst)
    obtain ⟨v', hrest', hu'⟩ := ih hu₁ (hw.work hj hfirst) (hv.work hj hfirst') hjobs hrest
    exact ⟨v', does_forM_cons.2 ⟨v₁, hfirst', hrest'⟩, hu'⟩

end Site

/-- What is told of specs whose name is taken says nothing of modules. -/
theorem outputs_eq (root : Path) (specs : List Claimant) (jobs : List Job) :
    (jobs.map (·.report) ++ specs.filterMap (collision? root (owners [] specs))).filterMap (·.output) =
      jobs.filterMap (·.report.output) := by
  have hnone : (specs.filterMap (collision? root (owners [] specs))).filterMap (·.output) = [] := by
    rw [List.filterMap_filterMap, List.filterMap_eq_nil_iff]
    intro c _
    unfold collision?
    split
    · rfl
    · split <;> rfl
  rw [List.filterMap_append, hnone, List.append_nil, List.filterMap_map]
  rfl

section Outputs

variable {jobs : List Job} {slug : String}

theorem mem_outputs (hfull : ∀ j ∈ jobs, j.Full) :
    Part.tests.file slug ∈ jobs.filterMap (·.report.output) ↔
      ∃ j ∈ jobs, j.slug = slug ∧ ∃ code, (.tests, some code) ∈ j.work.changes := by
  rw [List.mem_filterMap]
  constructor
  · rintro ⟨j, hj, houtput⟩
    obtain ⟨bytes, hbytes⟩ := (hfull j hj).parts .tests
    rw [(hfull j hj).output bytes hbytes] at houtput
    obtain ⟨code, rfl, hfile⟩ := Option.map_eq_some_iff.1 houtput
    exact ⟨j, hj, Part.file_injective hfile, code, hbytes⟩
  · rintro ⟨j, hj, rfl, code, hcode⟩
    exact ⟨j, hj, (hfull j hj).output _ hcode⟩

theorem mem_plans : Part.plan.file slug ∈ jobs.map (fun j => Part.plan.file j.slug) ↔
    slug ∈ jobs.map (·.slug) := by
  simp only [List.mem_map]
  constructor
  · rintro ⟨j, hj, hfile⟩
    exact ⟨j, hj, Part.file_injective hfile⟩
  · rintro ⟨j, hj, rfl⟩
    exact ⟨j, hj, rfl⟩

end Outputs

/-! Runs. -/

namespace Run

variable {root : Path} {settings : Settings} {r : Registry} {emit : Bool} {w w₁ w' : World}
  {specs : List Claimant} {jobs : List Job} {report : Report String Nat}

section Places

variable {s : Places root settings}

theorem slugs (h : Run s r emit w specs jobs w₁ report w') :
    jobs.map (·.slug) = (owners [] specs).map (·.slug) := slug_of_mapM_jobOf h.decided

theorem nodup (h : Run s r emit w specs jobs w₁ report w') : (jobs.map (·.slug)).Nodup := by
  rw [h.slugs]
  exact nodup_owners List.nodup_nil

theorem marked (h : Run s r emit w specs jobs w₁ report w') : ∀ j ∈ jobs, j.work.Marked :=
  marked_of_mapM_jobOf h.decided

theorem full (h : Run s r true w specs jobs w₁ report w') : ∀ j ∈ jobs, j.Full := by
  intro j hj
  obtain ⟨c, -, hjob⟩ := exists_of_mem_mapM h.decided j hj
  exact full_of_jobOf hjob

end Places

end Run

/-- A run that emits ends with pruning all but the files of the jobs. -/
theorem finishes_iff {root : Path} {settings : Settings} {s : Places root settings}
    {specs : List Claimant} {jobs : List Job}
    (hslugs : jobs.map (·.slug) = (owners [] specs).map (·.slug)) {w w' : World} {report : Report String Nat} :
    Finishes s true specs (jobs.map (·.report) ++ specs.filterMap (collision? root (owners [] specs)))
        w report w' ↔
      ∃ pruned w₁, (pruneTests s.tests (jobs.filterMap (·.report.output))).Does w pruned w₁ ∧
        (prunePlans s.plans (jobs.map fun j => Part.plan.file j.slug)).Does w₁ () w' ∧
        report = { files := jobs.map (·.report) ++ specs.filterMap (collision? root (owners [] specs))
                   pruned } := by
  have hlive : jobs.map (fun j => Part.plan.file j.slug) =
      (owners [] specs).map fun c => Part.plan.file c.slug := by
    have hmap := congrArg (List.map Part.plan.file) hslugs
    rwa [List.map_map, List.map_map] at hmap
  rw [hlive, Finishes, if_pos rfl, outputs_eq]

namespace Site

open Places

variable {root : Path} {settings : Settings} {s : Site root settings} {r : Registry} {emit : Bool}
  {w w₁ w₂ w' v v₁ : World} {specs : List Claimant} {jobs : List Job} {report : Report String Nat}
  {t u : Tree} {m : Location}

/-- The files of specs are those that the jobs come to. -/
structure Built (s : Site root settings) (jobs : List Job) (t : Tree) : Prop where
  tidy : s.Tidy t
  set : ∀ j ∈ jobs, ∀ f ∈ j.work.changes, t.file? (s.path f.1 j.slug).place = f.2
  rest : ∀ part slug, slug ∉ jobs.map (·.slug) → t.file? (s.path part slug).place = none

/-- Nothing else is in the directories that are written to. -/
theorem Built.file?_eq (hfull : ∀ j ∈ jobs, j.Full) (ht : s.Built jobs t) (hu : s.Built jobs u)
    (hm : s.Inside m) : t.file? m = u.file? m := by
  have hpath : ∀ part slug, t.file? (s.path part slug).place = u.file? (s.path part slug).place := by
    intro part slug
    by_cases hslug : slug ∈ jobs.map (·.slug)
    · obtain ⟨j, hj, rfl⟩ := List.mem_map.1 hslug
      obtain ⟨bytes, hbytes⟩ := (hfull j hj).parts part
      exact (ht.set j hj _ hbytes).trans (hu.set j hj _ hbytes).symm
    · rw [ht.rest part slug hslug, hu.rest part slug hslug]
  cases hfile : t.file? m with
  | some bytes =>
    obtain ⟨part, slug, rfl, -⟩ := ht.tidy.file m bytes hm hfile
    rw [← hpath, hfile]
  | none =>
    cases hfile' : u.file? m with
    | none => rfl
    | some bytes =>
      obtain ⟨part, slug, rfl, -⟩ := hu.tidy.file m bytes hm hfile'
      rw [← hpath, hfile] at hfile'
      cases hfile'

theorem file?_of_job (hset : w.tree.Sets w₁.tree (s.jobChanges jobs)) {j : Job} (hj : j ∈ jobs)
    {f : Part × Option ByteArray} (hf : f ∈ j.work.changes) :
    w₁.tree.file? (s.path f.1 j.slug).place = f.2 :=
  hset.set _ (mem_jobChanges.2 ⟨j, hj, f, hf, rfl⟩)

/-- Pruning modules takes nothing from a spec with a job. -/
theorem Pruned.tests_of_job (hfull : ∀ j ∈ jobs, j.Full)
    (hset : w.tree.Sets w₁.tree (s.jobChanges jobs)) (htidy : s.Tidy w₁.tree)
    (hpruned : s.Pruned .tests (jobs.filterMap (·.report.output)) w₁.tree w₂.tree) {j : Job}
    (hj : j ∈ jobs) (part : Part) :
    w₂.tree.file? (s.path part j.slug).place = w₁.tree.file? (s.path part j.slug).place := by
  by_cases hkept : part ∈ Part.tests.group → Part.tests.file j.slug ∈ jobs.filterMap (·.report.output)
  · refine hpruned.kept fun part' hpart' slug' hgone hplace => ?_
    obtain ⟨rfl, rfl⟩ := path_injective hplace
    exact hgone (hkept hpart')
  · obtain ⟨hpart, hgone⟩ := Classical.not_imp.1 hkept
    -- there is no module, so there is no manifest either
    have htests : w₁.tree.file? (s.path .tests j.slug).place = none := by
      obtain ⟨bytes, hbytes⟩ := (hfull j hj).parts .tests
      rw [file?_of_job hset hj hbytes]
      cases bytes with
      | none => rfl
      | some code => exact absurd ((mem_outputs hfull).2 ⟨j, hj, rfl, code, hbytes⟩) hgone
    have hnone : w₁.tree.file? (s.path part j.slug).place = none := by
      by_contra hfile
      exact htidy.file?_of_group (by simp) hpart hfile htests
    rw [hpruned.gone part hpart j.slug hgone, hnone]

/-- After pruning the directories hold what the jobs come to. -/
theorem built_of_pruned (hfull : ∀ j ∈ jobs, j.Full) (hset : w.tree.Sets w₁.tree (s.jobChanges jobs))
    (htidy : s.Tidy w₁.tree)
    (htests : s.Pruned .tests (jobs.filterMap (·.report.output)) w₁.tree w₂.tree)
    (hplans : s.Pruned .plan (jobs.map fun j => Part.plan.file j.slug) w₂.tree w'.tree) :
    s.Built jobs w'.tree := by
  refine ⟨hplans.tidy, fun j hj f hf => ?_, fun part slug hslug => ?_⟩
  · have hkept :
        w'.tree.file? (s.path f.1 j.slug).place = w₂.tree.file? (s.path f.1 j.slug).place := by
      refine hplans.kept fun part' _ slug' hgone hplace => hgone (mem_plans.2 ?_)
      rw [(path_injective hplace).2]
      exact List.mem_map_of_mem hj
    rw [hkept, htests.tests_of_job hfull hset htidy hj, file?_of_job hset hj hf]
  · by_cases hpart : part = .plan
    · subst hpart
      exact hplans.gone .plan (by simp [Part.group]) slug (mt mem_plans.1 hslug)
    · have hgroup : part ∈ Part.tests.group := by
        cases part <;> simp [Part.group] at hpart ⊢
      have hgone : Part.tests.file slug ∉ jobs.filterMap (·.report.output) := by
        intro hmem
        obtain ⟨j, hj, rfl, -⟩ := (mem_outputs hfull).1 hmem
        exact hslug (List.mem_map_of_mem hj)
      rw [hplans.kept, htests.gone part hgroup slug hgone]
      intro part' hpart' slug' _ hplace
      rw [← (path_injective hplace).1] at hpart
      exact hpart (List.mem_singleton.1 hpart')

/-! Where only specs with jobs have files, there is nothing to prune. -/

section Idle

variable (hset : v.tree.Sets v₁.tree (s.jobChanges jobs))
  (hrest : ∀ part slug, slug ∉ jobs.map (·.slug) → v.tree.file? (s.path part slug).place = none)

include hset hrest

theorem mem_slugs_of_file? {part : Part} {slug : String}
    (hfile : v₁.tree.file? (s.path part slug).place ≠ none) : slug ∈ jobs.map (·.slug) := by
  by_contra hslug
  apply hfile
  rw [hset.kept, hrest part slug hslug]
  intro c hc hplace
  obtain ⟨j, hj, f, -, rfl⟩ := mem_jobChanges.1 hc
  rw [← (path_injective hplace).2] at hslug
  exact hslug (List.mem_map_of_mem hj)

theorem mem_outputs_of_file? (hfull : ∀ j ∈ jobs, j.Full) {slug : String}
    (hfile : v₁.tree.file? (s.path .tests slug).place ≠ none) :
    Part.tests.file slug ∈ jobs.filterMap (·.report.output) := by
  obtain ⟨j, hj, rfl⟩ := List.mem_map.1 (mem_slugs_of_file? hset hrest hfile)
  obtain ⟨bytes, hbytes⟩ := (hfull j hj).parts .tests
  rw [file?_of_job hset hj hbytes] at hfile
  obtain ⟨code, rfl⟩ := Option.ne_none_iff_exists'.1 hfile
  exact (mem_outputs hfull).2 ⟨j, hj, rfl, code, hbytes⟩

theorem mem_plans_of_file? {slug : String} (hfile : v₁.tree.file? (s.path .plan slug).place ≠ none) :
    Part.plan.file slug ∈ jobs.map fun j => Part.plan.file j.slug :=
  mem_plans.2 (mem_slugs_of_file? hset hrest hfile)

end Idle

/-! Runs in tidy directories. -/

theorem Tidy.run (h : s.Tidy w.tree) (hrun : Run s.toPlaces r emit w specs jobs w₁ report w') :
    s.Tidy w'.tree := by
  obtain ⟨-, htidy⟩ := h.sets_jobs hrun.marked hrun.nodup hrun.done
  cases emit with
  | false =>
    obtain ⟨-, rfl⟩ := hrun.ended
    exact htidy
  | true =>
    obtain ⟨pruned, w₂, htests, hplans, -⟩ := (finishes_iff hrun.slugs).1 hrun.ended
    exact ((htidy.pruned_tests htests).tidy.pruned_plans hplans).tidy

theorem Tidy.built (h : s.Tidy w.tree) (hrun : Run s.toPlaces r true w specs jobs w₁ report w') :
    s.Built jobs w'.tree := by
  obtain ⟨hset, htidy⟩ := h.sets_jobs hrun.marked hrun.nodup hrun.done
  obtain ⟨pruned, w₂, htests, hplans, -⟩ := (finishes_iff hrun.slugs).1 hrun.ended
  have hpruned := htidy.pruned_tests htests
  exact built_of_pruned hrun.full hset htidy hpruned (hpruned.tidy.pruned_plans hplans)

/-- A run changes nothing but files of specs. -/
theorem Tidy.outside (h : s.Tidy w.tree) (hrun : Run s.toPlaces r true w specs jobs w₁ report w')
    (hm : ¬s.Inside m) : w'.tree.file? m = w.tree.file? m := by
  obtain ⟨hset, htidy⟩ := h.sets_jobs hrun.marked hrun.nodup hrun.done
  obtain ⟨pruned, w₂, htests, hplans, -⟩ := (finishes_iff hrun.slugs).1 hrun.ended
  have hpruned := htidy.pruned_tests htests
  have hpath : ∀ part slug, (s.path part slug).place ≠ m := by
    rintro part slug rfl
    exact hm inside_place
  rw [(hpruned.tidy.pruned_plans hplans).kept fun part' _ slug _ => hpath part' slug,
    hpruned.kept fun part' _ slug _ => hpath part' slug, hset.kept]
  intro c hc
  obtain ⟨j, -, f, -, rfl⟩ := mem_jobChanges.1 hc
  exact hpath f.1 j.slug

/-- Pruning neither makes nor removes a directory. -/
theorem Tidy.get?_dir_iff (h : s.Tidy w.tree)
    (hrun : Run s.toPlaces r true w specs jobs w₁ report w') :
    w'.tree.get? m = some .dir ↔ w₁.tree.get? m = some .dir := by
  obtain ⟨-, htidy⟩ := h.sets_jobs hrun.marked hrun.nodup hrun.done
  obtain ⟨pruned, w₂, htests, hplans, -⟩ := (finishes_iff hrun.slugs).1 hrun.ended
  have hpruned := htidy.pruned_tests htests
  rw [(hpruned.tidy.pruned_plans hplans).get?_dir, hpruned.get?_dir]

theorem Tidy.dirs (h : s.Tidy w.tree) (hrun : Run s.toPlaces r true w specs jobs w₁ report w')
    (hm : w.tree.get? m = some .dir) : w'.tree.get? m = some .dir := by
  obtain ⟨hset, -⟩ := h.sets_jobs hrun.marked hrun.nodup hrun.done
  exact (h.get?_dir_iff hrun).2 (hset.dirs m hm)

/-- A run makes directories only for its jobs. -/
theorem Tidy.fresh (h : s.Tidy w.tree) (hrun : Run s.toPlaces r true w specs jobs w₁ report w')
    (hm : w'.tree.get? m = some .dir) : w.tree.get? m = some .dir ∨ jobs ≠ [] ∧ s.Way m := by
  obtain ⟨hset, -⟩ := h.sets_jobs hrun.marked hrun.nodup hrun.done
  refine (hset.fresh m ((h.get?_dir_iff hrun).1 hm)).imp_right ?_
  rintro ⟨c, hc, -, hway⟩
  obtain ⟨j, hj, f, -, rfl⟩ := mem_jobChanges.1 hc
  exact ⟨List.ne_nil_of_mem hj, way_of_mem hway⟩

end Site

end Project

end Acceptance

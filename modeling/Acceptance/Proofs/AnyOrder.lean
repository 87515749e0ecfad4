import Acceptance.Proofs.InTurn
import Acceptance.Proofs.Rebuild
/-!
Specs are compiled independently of each other, in any order. However the operations of several
compilations are interleaved, they leave the same tree and the same reports, and what becomes of one
spec does not depend on the others. The one condition is that the directories for plans and tests are
reached without detours: with a missing directory on a detour a stale file is overlooked, and whether
it is missing depends on who comes first.
-/
namespace Acceptance

open Script

/-! Specs that are read first. -/

namespace Script

variable {α : Type} {w₀ w w' : World} {scripts scripts' : List (Script α)}

/-- The second script is the first, or it is what the first comes to by reading a spec. -/
def Ahead (w₀ : World) (s s' : Script α) : Prop :=
  s = s' ∨ ∃ p k, s = ask (.read p) >>= k ∧ s' = k (Project.replyOf w₀ p) ∧
    ∀ w, w₀.tree.KeepsSpecs w.tree → Project.replyOf w p = Project.replyOf w₀ p

/-- Each script of the second list is ahead of the one in the same position. -/
structure AllAhead (w₀ : World) (scripts scripts' : List (Script α)) : Prop where
  length : scripts.length = scripts'.length
  ahead : ∀ (i : Nat) s s', scripts[i]? = some s → scripts'[i]? = some s' → Ahead w₀ s s'

theorem AllAhead.set (h : AllAhead w₀ scripts scripts') (i : Nat) (s : Script α) :
    AllAhead w₀ (scripts.set i s) (scripts'.set i s) := by
  refine ⟨by simpa using h.length, fun j a a' ha ha' => ?_⟩
  by_cases hij : i = j
  · subst hij
    have hi := (List.getElem?_eq_some_iff.1 ha').1
    rw [List.length_set] at hi
    rw [List.getElem?_set_self (h.length ▸ hi)] at ha
    rw [List.getElem?_set_self hi] at ha'
    exact .inl ((Option.some.inj ha).symm.trans (Option.some.inj ha'))
  · rw [List.getElem?_set_ne hij] at ha ha'
    exact h.ahead j a a' ha ha'

/-- Scripts at their ends are not behind. -/
theorem AllAhead.eq_of_done {results : List α} (h : AllAhead w₀ (results.map done) scripts') :
    scripts' = results.map done := by
  refine List.ext_getElem? fun i => ?_
  cases hs : scripts'[i]? with
  | none =>
    rw [List.getElem?_eq_none_iff, ← h.length] at hs
    exact (List.getElem?_eq_none hs).symm
  | some s' =>
    have hi := (List.getElem?_eq_some_iff.1 hs).1
    rw [← h.length, List.length_map] at hi
    have hdone : (results.map done)[i]? = some (done results[i]) := by simp [hi]
    rcases h.ahead i _ s' hdone hs with rfl | ⟨p, k, heq, -⟩
    · exact hdone.symm
    · cases heq

/-- As long as specs are kept, it makes no difference when they are read. -/
theorem Interleaves.exists_ahead {schedule : List Nat} {results : List α}
    (h : Interleaves schedule scripts w results w') (hk : w₀.tree.KeepsSpecs w.tree)
    (hahead : AllAhead w₀ scripts scripts') (hspares : ∀ s ∈ scripts', s.SparesSpecs) :
    ∃ schedule', Interleaves schedule' scripts' w results w' := by
  induction schedule generalizing scripts scripts' w with
  | nil =>
    obtain ⟨rfl, rfl⟩ := Prod.mk.inj h
    exact ⟨[], congrArg (·, w) hahead.eq_of_done⟩
  | cons i schedule ih =>
    rw [Interleaves, interleave_cons] at h
    rcases turn_cases scripts w i with hturn | ⟨op, next, hs, hturn⟩
    · rw [hturn] at h
      exact ih h hk hahead hspares
    · rw [hturn] at h
      have hi : i < scripts'.length := hahead.length ▸ (List.getElem?_eq_some_iff.1 hs).1
      have hs' : scripts'[i]? = some scripts'[i] := List.getElem?_eq_getElem hi
      have hset := hahead.set i (next (op.perform w).1)
      rcases hahead.ahead i _ _ hs hs' with heq | ⟨p, k, heq, hread, hsame⟩
      · -- both do the same operation
        rw [← heq] at hs'
        obtain ⟨hop, hnext⟩ := hspares _ (List.mem_of_getElem? hs')
        have hkept := (Op.sparesSpecs_iff.1 hop).perform w
        have hlater := ih h (hk.trans ⟨hkept.dirs, hkept.files⟩) hset fun s hmem => by
          rcases List.mem_or_eq_of_mem_set hmem with hold | rfl
          · exact hspares s hold
          · exact hnext _
        obtain ⟨schedule', hlater⟩ := hlater
        refine ⟨i :: schedule', ?_⟩
        rw [Interleaves, interleave_cons, turn_of_call hs']
        exact hlater
      · -- one reads a spec that the other has read
        cases heq
        have hworld : ((Op.read p).perform w).2 = w := congrArg Prod.snd (Project.perform_read w p)
        have hreply : ((Op.read p).perform w).1 = Project.replyOf w₀ p := hsame w hk
        have hnext : scripts'.set i (k (Project.replyOf w₀ p)) = scripts' := by
          rw [← hread, List.set_getElem_self]
        rw [hworld, hreply] at h
        rw [hreply] at hset
        refine ih h hk (?_ : AllAhead w₀ _ scripts') hspares
        rw [← hnext]
        exact hset

end Script

namespace Project

variable {root : Path} {settings : Settings} {s : Places root settings} {r : Registry} {emit : Bool}
  {cs : List Claimant} {w w' : World} {schedule : List Nat} {files : List (FileReport String Nat)}

theorem sparesAt_nowhere {α : Type} (c : Script α) : c.SparesAt fun _ => False := by
  induction c with
  | done a => trivial
  | stop f => trivial
  | call op next ih => exact ⟨op.sparesAt_nowhere, ih⟩

/-- What is left to do for a spec once it is read. -/
def afterRead (s : Places root settings) (r : Registry) (emit : Bool) (c : Claimant)
    (reply : Except FileError ByteArray) : Script (FileReport String Nat) := do
  let made ← ofOutcome
    (workOf r emit c.slug (specName root c.path) (planOf (specName root c.path) reply))
  made.2.script s c.slug
  return made.1

theorem sparesSpecs_afterRead (c : Claimant) (reply : Except FileError ByteArray) :
    (afterRead s r emit c reply).SparesSpecs :=
  (Asks.ofOutcome _).bind fun made _ => (sparesSpecs_work made.2).bind fun _ _ => trivial

theorem allAhead_compileSpecs (hs : w.tree.Sound)
    (hfound : ∀ c ∈ cs, Found w.tree s.specs c.path ∧ specSlug s.specs c.path = .ok c.slug) :
    AllAhead w ((cs.map (·.path)).map (compileSpec root settings r emit))
      (cs.map fun c => afterRead s r emit c (replyOf w c.path)) := by
  refine ⟨by simp, fun i a a' ha ha' => .inr ?_⟩
  rw [List.map_map, List.getElem?_map] at ha
  rw [List.getElem?_map] at ha'
  obtain ⟨c, hc, rfl⟩ := Option.map_eq_some_iff.1 ha
  rw [hc] at ha'
  cases ha'
  obtain ⟨hfound, hslug⟩ := hfound c (List.mem_of_getElem? hc)
  exact ⟨c.path, afterRead s r emit c, compileSpec_eq s hslug r emit, rfl,
    fun v hv => replyOf_of_keepsSpecs hv hs hfound⟩

theorem call_of_jobOf {c : Claimant} {job : Job} (h : jobOf root r emit (replyOf w) c = .ok job) :
    job.call s = afterRead s r emit c (replyOf w c.path) := by
  obtain ⟨slug, report, work⟩ := job
  obtain ⟨rfl, hwork⟩ := jobOf_eq_ok.1 h
  rw [afterRead, hwork]
  rfl

/-- To compile specs side by side is to do the jobs that are decided on at the start. -/
theorem exists_jobs (hs : w.tree.Sound)
    (hfound : ∀ c ∈ cs, Found w.tree s.specs c.path ∧ specSlug s.specs c.path = .ok c.slug)
    (h : Interleaves schedule ((cs.map (·.path)).map (compileSpec root settings r emit)) w files w') :
    ∃ jobs schedule', cs.mapM (jobOf root r emit (replyOf w)) = .ok jobs ∧
      Interleaves schedule' (jobs.map (Job.call s)) w files w' := by
  have hspares : ∀ a ∈ cs.map fun c => afterRead s r emit c (replyOf w c.path), a.SparesSpecs :=
    List.forall_mem_map.2 fun c _ => sparesSpecs_afterRead c _
  obtain ⟨schedule', hrun⟩ := h.exists_ahead (.refl _) (allAhead_compileSpecs hs hfound) hspares
  have hdecided : ∀ c ∈ cs, ∃ job, jobOf root r emit (replyOf w) c = .ok job := by
    intro c hc
    obtain ⟨i, hi⟩ := List.mem_iff_getElem?.1 hc
    have hscript : (cs.map fun c => afterRead s r emit c (replyOf w c.path))[i]? =
        some (afterRead s r emit c (replyOf w c.path)) := by
      rw [List.getElem?_map, hi]
      rfl
    -- a spec that nothing can be decided on would end its script with a fault
    obtain ⟨file, -, hamid⟩ := hrun.exists_amid hscript fun j a _ _ => sparesAt_nowhere a
    cases hwork : workOf r emit c.slug (specName root c.path)
        (planOf (specName root c.path) (replyOf w c.path)) with
    | ok made => exact ⟨⟨c.slug, made.1, made.2⟩, jobOf_eq_ok.2 ⟨rfl, hwork⟩⟩
    | error f =>
      rw [afterRead, hwork] at hamid
      exact hamid.elim
  obtain ⟨jobs, hjobs⟩ := mapM_isOk.2 hdecided
  refine ⟨jobs, schedule', hjobs, ?_⟩
  rw [map_eq_of_mapM (fun c job hjob => call_of_jobOf hjob) hjobs]
  exact hrun

/-- A project whose registry can be read, with the specs that own their output names. -/
structure Loaded (s : Places root settings) (r : Registry) (w : World) (cs : List Claimant) : Prop where
  sound : w.tree.Sound
  registry : (readRegistry s.registry).Does w r w
  owned : ∃ paths specs, (specFiles s.specs).Does w paths w ∧ claimants s.specs paths = .ok specs ∧
    cs = owners [] specs

namespace Loaded

theorem found (h : Loaded s r w cs) :
    ∀ c ∈ cs, Found w.tree s.specs c.path ∧ specSlug s.specs c.path = .ok c.slug := by
  obtain ⟨paths, specs, hpaths, hspecs, rfl⟩ := h.owned
  exact found_of_mem_owners h.sound hpaths hspecs

theorem nodup_slugs (h : Loaded s r w cs) {jobs : List Job}
    (hjobs : cs.mapM (jobOf root r emit (replyOf w)) = .ok jobs) : (jobs.map (·.slug)).Nodup := by
  obtain ⟨paths, specs, -, -, rfl⟩ := h.owned
  rw [slug_of_mapM_jobOf hjobs]
  exact nodup_owners List.nodup_nil

theorem settled (h : Loaded s r w cs) (hne : s.plans.place ≠ s.tests.place) (hway : s.Straight w.tree)
    (hrun : Interleaves schedule ((cs.map (·.path)).map (compileSpec root settings r emit)) w files w') :
    ∃ jobs, cs.mapM (jobOf root r emit (replyOf w)) = .ok jobs ∧ files = jobs.map (·.report) ∧
      Settled s jobs w w' := by
  obtain ⟨jobs, schedule', hjobs, hrun⟩ := exists_jobs h.sound h.found hrun
  exact ⟨jobs, hjobs, settled_of_interleaves hne (h.nodup_slugs hjobs) (marked_of_mapM_jobOf hjobs)
    (fun _ _ => hway.paved h.sound) hrun⟩

/-- Specs that can be compiled side by side can be compiled in turn. -/
theorem exists_does (h : Loaded s r w cs) (hne : s.plans.place ≠ s.tests.place)
    (hway : s.Straight w.tree) (hopen : ∀ part, w.tree.Open (s.dir part))
    (hfits : ∀ c ∈ cs, s.Fits c.slug)
    (hrun : Interleaves schedule ((cs.map (·.path)).map (compileSpec root settings r emit)) w files w') :
    ∃ files' w'', ((cs.map (·.path)).mapM (compileSpec root settings r emit)).Does w files' w'' := by
  obtain ⟨jobs, schedule', hjobs, hrun⟩ := exists_jobs h.sound h.found hrun
  have hmarked := marked_of_mapM_jobOf hjobs
  have hcan : ∀ j ∈ jobs, j.work.Can s j.slug w := by
    intro j hj
    obtain ⟨i, hi⟩ := List.mem_iff_getElem?.1 hj
    obtain ⟨-, w₁, hamid, -⟩ := amid_of_interleaves hne (h.nodup_slugs hjobs) hrun hi
    exact can_of_amid hamid (hmarked j hj) h.sound hway hopen
  have hfits : ∀ j ∈ jobs, s.Fits j.slug := by
    intro j hj
    obtain ⟨c, hc, hjob⟩ := exists_of_mem_mapM hjobs j hj
    rw [(jobOf_eq_ok.1 hjob).1]
    exact hfits c hc
  obtain ⟨w'', hdoes⟩ := exists_does_jobs hne (h.nodup_slugs hjobs) hmarked hfits
    (fun part => (hopen part).fits) (fun j _ => hway.paved h.sound) hcan
  exact ⟨_, w'', (does_compileSpecs h.sound (.refl _) h.found).2 ⟨jobs, hjobs, rfl, hdoes⟩⟩

end Loaded

section Reports

variable {c : Claimant} {jobs : List Job}

theorem jobOf_of_mem_zip (hjobs : cs.mapM (jobOf root r emit (replyOf w)) = .ok jobs)
    {file : FileReport String Nat} (h : (c, file) ∈ cs.zip (jobs.map (·.report))) :
    ∃ j, jobOf root r emit (replyOf w) c = .ok j ∧ file = j.report := by
  rw [List.zip_map_right] at h
  obtain ⟨⟨c', j⟩, hmem, heq⟩ := List.mem_map.1 h
  cases heq
  exact ⟨j, (List.forall₂_iff_zip.1 (mapM_eq_ok.1 hjobs)).2 hmem, rfl⟩

theorem exists_mem_zip (hjobs : cs.mapM (jobOf root r emit (replyOf w)) = .ok jobs) (hc : c ∈ cs) :
    ∃ j ∈ jobs, jobOf root r emit (replyOf w) c = .ok j ∧
      (c, j.report) ∈ cs.zip (jobs.map (·.report)) := by
  have hall := mapM_eq_ok.1 hjobs
  obtain ⟨i, hi, rfl⟩ := List.mem_iff_getElem.1 hc
  have hi' : i < jobs.length := hall.length_eq ▸ hi
  refine ⟨jobs[i], List.getElem_mem hi', hall.get hi hi', ?_⟩
  rw [List.zip_map_right]
  refine List.mem_map.2 ⟨(cs[i], jobs[i]), ?_, rfl⟩
  exact List.mem_iff_getElem.2 ⟨i, by simp [hi, hi'], by simp⟩

/-- What a job writes does not depend on what was there. -/
theorem Settled.file?_cases (h : Settled s jobs w w') {j : Job} (hj : j ∈ jobs) {part : Part}
    {bytes : ByteArray} (hfile : w'.tree.file? (s.path part j.slug).place = some bytes)
    {jobs' : List Job} {v v' : World} (h' : Settled s jobs' v v') (hj' : j ∈ jobs') :
    w.tree.file? (s.path part j.slug).place = some bytes ∨
      v'.tree.file? (s.path part j.slug).place = some bytes := by
  have hown : s.Own j.slug (s.path part j.slug).place := Places.own_place
  have hset := h.own j hj
  by_cases hc : ∃ c ∈ j.work.sets s j.slug (replyOf w (s.path .plan j.slug)),
      c.1 = (s.path part j.slug).place
  · obtain ⟨⟨m, set⟩, hmem, rfl⟩ := hc
    rw [hset.set _ hmem hown] at hfile
    cases hfile
    exact .inr ((h'.own j hj').set _ (mem_groupSets_some.2 (mem_groupSets_some.1 hmem)) hown)
  · left
    rw [← hfile, hset.kept _ hown fun c hmem heq => hc ⟨c, hmem, heq⟩]

end Reports

/-- However compilations are interleaved, the tree and the reports are as if one spec were compiled
after the other, which can be done if there is room for all files. What becomes of a spec does not
depend on which others there are. -/
theorem compiled_in_any_order (s : Places root settings) (hne : s.plans.place ≠ s.tests.place)
    (hw : Loaded s r w cs) (hway : s.Straight w.tree)
    (h : Interleaves schedule ((cs.map (·.path)).map (compileSpec root settings r emit)) w files w') :
    (∀ together,
      (∀ files' w'',
        (several together (compileSpec root settings r emit) (cs.map (·.path))).Does w files' w'' →
          files = files' ∧ ∀ m, w'.tree.get? m = w''.tree.get? m) ∧
      ((∀ part, w.tree.Open (s.dir part)) → (∀ c ∈ cs, s.Fits c.slug) → ∃ files' w'',
        (several together (compileSpec root settings r emit) (cs.map (·.path))).Does w files' w'')) ∧
    ∀ v ds schedule' files' v', Loaded s r v ds → s.Straight v.tree →
      Interleaves schedule' ((ds.map (·.path)).map (compileSpec root settings r emit)) v files' v' →
        ∀ c ∈ cs, c ∈ ds → replyOf w c.path = replyOf v c.path →
          (∀ file, (c, file) ∈ cs.zip files → (c, file) ∈ ds.zip files') ∧
          ∀ part bytes, w'.tree.file? (s.path part c.slug).place = some bytes →
            w.tree.file? (s.path part c.slug).place = some bytes ∨
              v'.tree.file? (s.path part c.slug).place = some bytes := by
  obtain ⟨jobs, hjobs, rfl, hsettled⟩ := hw.settled hne hway h
  refine ⟨fun together => ⟨fun files' w'' hdoes => ?_, fun hopen hfits => ?_⟩,
    fun v ds schedule' files' v' hv hvway hv' c hc hc' hread => ?_⟩
  · -- one after the other is an order like any other
    obtain ⟨schedule', hturns⟩ := (does_several.1 hdoes).exists_interleaves
    obtain ⟨jobs', hjobs', rfl, hsettled'⟩ := hw.settled hne hway hturns
    obtain rfl := Except.ok.inj (hjobs.symm.trans hjobs')
    exact ⟨rfl, hsettled.get?_eq hsettled'⟩
  · obtain ⟨files', w'', hdoes⟩ := hw.exists_does hne hway hopen hfits h
    exact ⟨files', w'', does_several.2 hdoes⟩
  · -- the job of a spec is the same in both projects
    obtain ⟨jobs', hjobs', rfl, hsettled'⟩ := hv.settled hne hvway hv'
    obtain ⟨j, hj, hjob, -⟩ := exists_mem_zip hjobs hc
    obtain ⟨j', hj', hjob', hzip⟩ := exists_mem_zip hjobs' hc'
    rw [jobOf_congr hread.symm] at hjob'
    obtain rfl := Except.ok.inj (hjob.symm.trans hjob')
    refine ⟨fun file hfile => ?_, fun part bytes hbytes => ?_⟩
    · obtain ⟨j', hjob'', rfl⟩ := jobOf_of_mem_zip hjobs hfile
      obtain rfl := Except.ok.inj (hjob.symm.trans hjob'')
      exact hzip
    · have hslug := (jobOf_eq_ok.1 hjob).1
      rw [← hslug] at hbytes ⊢
      exact hsettled.file?_cases hj hbytes hsettled' hj'

/-! A project with stale tests, and two ways to the directory that they are in. -/

def settingsFor (out : String) : Settings := { planDir := .text "gen", outputDir := .text out }

def placesFor (out : String) : Places here (settingsFor out) :=
  ⟨here.join (.ofText "specs"), here.join (.ofText "gen"), here.join (.ofText out),
    here.join (.ofText "specs/operations.yaml"), rfl, rfl, rfl, rfl⟩

/-- The project with its first spec, some files that are made and some that are there. -/
def stocked (made there : List (Location × Entry)) : World where
  tree := ⟨made ++ [(["specs"], .dir), (["specs", "operations.yaml"], .file (Text.encode tallyText)),
    (["specs", "first.gwt"], .file (Text.encode leapText))] ++ there⟩

/-- A second spec that is no text. -/
def spoiledSpec : Location × Entry := (["specs", "second.gwt"], .file ⟨#[0xff]⟩)

def outDir : Location × Entry := (["out"], .dir)

def staleTests : Location × Entry := (["out", "test_second.py"], .file .empty)

def outdated : World := stocked [] [spoiledSpec, outDir, staleTests]

/-- The work for the first spec, which has no tests. -/
def planWork (text : String) : Work := .write [(.plan, text)] [.tests, .manifest]

theorem planOf_spoiled (name : String) :
    planOf name (.ok ⟨#[0xff]⟩) = .error (.problem (atFirstLine name .notUtf8)) := by
  have hnone : (Text.decode (Text.withoutMark ⟨#[0xff]⟩)).toOption = none := by decide +kernel
  cases hdecode : Text.decode (Text.withoutMark ⟨#[0xff]⟩) with
  | ok text =>
    rw [hdecode] at hnone
    cases hnone
  | error e =>
    have hspec : specOfBytes name ⟨#[0xff]⟩ = .error (.problem (atFirstLine name .notUtf8)) := by
      rw [specOfBytes, textOf, hdecode]
      rfl
    exact congrArg (· >>= _) hspec

theorem sound_outdated : outdated.tree.Sound := by
  refine ⟨?_, ?_, ?_⟩
  all_goals simp [outdated, stocked, spoiledSpec, outDir, staleTests, Tree.get?]

theorem loaded_outdated {out : String} :
    Loaded (placesFor out) (tallied here) outdated [firstSpec, secondSpec] := by
  have hpaths : (specFiles (usual here).specs).Does outdated [firstSpec.path, secondSpec.path]
      outdated := does_specFiles_of_sorted rfl rfl (by decide +kernel)
  have howners : owners [] [firstSpec, secondSpec] = [firstSpec, secondSpec] := by decide +kernel
  exact ⟨sound_outdated, does_readRegistry.2 ⟨registryOf_tally, rfl⟩, _, _, hpaths,
    claimants_twoSpecs, howners.symm⟩

theorem straight_out (t : Tree) : (placesFor "out").Straight t := by
  intro part
  refine Tree.straight_of_not_mem ?_ t
  cases part <;> decide +kernel

theorem open_outdated (part : Part) : outdated.tree.Open ((placesFor "out").dir part) := by
  cases part
  all_goals
    refine ⟨rfl, by decide, by unfold Tree.NameFits; decide, ?_⟩
    decide +kernel

theorem fits_out (c : Claimant) (hc : c ∈ [firstSpec, secondSpec]) :
    (placesFor "out").Fits c.slug := by
  have hslug : c.slug = "first" ∨ c.slug = "second" := by
    rcases List.mem_pair.1 hc with rfl | rfl
    · exact .inl rfl
    · exact .inr rfl
  rcases hslug with hslug | hslug
  all_goals
    rw [hslug]
    refine ⟨fun part => ?_, ?_⟩
    · cases part
      all_goals exact ⟨⟨rfl, by decide, by decide⟩, ⟨rfl, by decide, by decide⟩⟩
    · rintro m ⟨part, rfl | rfl⟩ ⟨part', hl⟩
      all_goals
        revert hl
        cases part <;> cases part' <;> decide +kernel

section Runs

variable {out text : String} {w w₂ : World}

theorem does_removals_of_missing {ps : List Path} (h : ∀ p ∈ ps, (removeIfThere p).Does w () w) :
    (ps.forM removeIfThere).Does w () w := by
  induction ps with
  | nil => exact does_forM_nil.2 rfl
  | cons p ps ih =>
    obtain ⟨hp, hps⟩ := List.forall_mem_cons.1 h
    exact does_forM_cons.2 ⟨w, hp, ih hps⟩

/-- A spec comes to a plan, and no tests are there. -/
theorem does_planWork {s : Places root settings} {slug : String} {p : Path}
    (hp : s.path .plan slug = p) (w₁ : World)
    (hstage : (stage p text).Does w ⟨p, draftOf p⟩ w₁) (hswap : (swapIn ⟨p, draftOf p⟩).Does w₁ () w₂)
    (htests : (removeIfThere (s.path .tests slug)).Does w₂ () w₂)
    (hmanifest : (removeIfThere (s.path .manifest slug)).Does w₂ () w₂) :
    ((planWork text).script s slug).Does w () w₂ := by
  subst hp
  refine does_writeGroup_one hstage hswap (does_removals_of_missing fun p hp => ?_)
  rcases List.mem_pair.1 (List.mem_of_mem_filter hp) with rfl | rfl
  · exact htests
  · exact hmanifest

end Runs

/-- The specs as they are compiled for a directory of tests. -/
def compiling (out : String) (cs : List Claimant) : List (Script (FileReport String Nat)) :=
  (cs.map (·.path)).map (compileSpec here (settingsFor out) (tallied here) true)

/-- Both specs are read before the second is dealt with, and then the first. -/
def secondFirst : List Nat := [1, 0] ++ List.replicate 20 1 ++ List.replicate 20 0

/-- The same project without its second spec. -/
def withoutSecond : World := stocked [] [outDir, staleTests]

theorem loaded_without {out : String} :
    Loaded (placesFor out) (tallied here) withoutSecond [firstSpec] := by
  have hsound : withoutSecond.tree.Sound := by
    refine ⟨?_, ?_, ?_⟩
    all_goals simp [withoutSecond, stocked, outDir, staleTests, Tree.get?]
  have hpaths : (specFiles (usual here).specs).Does withoutSecond [firstSpec.path] withoutSecond :=
    does_specFiles_of_sorted rfl rfl (List.pairwise_singleton ..)
  have hclaimants : claimants (usual here).specs [firstSpec.path] = .ok [firstSpec] := rfl
  have howners : owners [] [firstSpec] = [firstSpec] := by decide +kernel
  exact ⟨hsound, does_readRegistry.2 ⟨registryOf_tally, rfl⟩, _, _, hpaths, hclaimants, howners.symm⟩

/-- Stale tests of a spec that is spoiled are removed, and the other spec has the same plan as
without the spoiled one. -/
theorem compiled_in_any_order_outdated : ∃ r schedule file spoiled w',
    Loaded (placesFor "out") r outdated [firstSpec, secondSpec] ∧
    (placesFor "out").Straight outdated.tree ∧
    Interleaves schedule (([firstSpec, secondSpec].map (·.path)).map
      (compileSpec here (settingsFor "out") r true)) outdated [file, spoiled] w' ∧
    w'.tree.file? ["out", "test_second.py"] = none ∧
    (∃ w'', (several true (compileSpec here (settingsFor "out") r true)
        ([firstSpec, secondSpec].map (·.path))).Does outdated [file, spoiled] w'' ∧
      ∀ m, w'.tree.get? m = w''.tree.get? m) ∧
    ∃ schedule' files' v', Interleaves schedule' (([firstSpec].map (·.path)).map
        (compileSpec here (settingsFor "out") r true)) withoutSecond files' v' ∧
      (firstSpec, file) ∈ [firstSpec].zip files' ∧ w'.tree.file? ["gen", "first.json"] ≠ none ∧
      w'.tree.file? ["gen", "first.json"] = v'.tree.file? ["gen", "first.json"] := by
  have hends : ((interleave secondFirst (compiling "out" [firstSpec, secondSpec])
      outdated).1.mapM result?).isSome = true := by decide +kernel
  have hends' : ((interleave (List.replicate 20 0) (compiling "out" [firstSpec])
      withoutSecond).1.mapM result?).isSome = true := by decide +kernel
  have hplan : ((interleave secondFirst (compiling "out" [firstSpec, secondSpec])
      outdated).2.tree.file? ["gen", "first.json"]).isSome = true := by decide +kernel
  obtain ⟨files, hfiles⟩ := Option.isSome_iff_exists.1 hends
  obtain ⟨files', hfiles'⟩ := Option.isSome_iff_exists.1 hends'
  obtain ⟨bytes, hbytes⟩ := Option.isSome_iff_exists.1 hplan
  have hrun := interleaves_of_mapM hfiles
  have hrun' := interleaves_of_mapM hfiles'
  obtain ⟨file, spoiled, rfl⟩ := List.length_eq_two.1 hrun.length_eq
  obtain ⟨hturn, hothers⟩ := compiled_in_any_order (placesFor "out") (by decide +kernel)
    loaded_outdated (straight_out _) hrun
  obtain ⟨hsame, hdoes⟩ := hturn true
  obtain ⟨_, w'', hdoes⟩ := hdoes open_outdated fits_out
  obtain ⟨rfl, htree⟩ := hsame _ _ hdoes
  obtain ⟨hreport, hfile⟩ := hothers withoutSecond _ _ _ _ loaded_without (straight_out _) hrun'
    firstSpec (.head _) (.head _) rfl
  refine ⟨_, _, file, spoiled, _, loaded_outdated, straight_out _, hrun, by decide +kernel,
    ⟨w'', hdoes, htree⟩, _, files', _, hrun', hreport file (.head _), ?_, ?_⟩
  · exact Option.ne_none_iff_isSome.2 hplan
  -- there is no plan of the first spec to begin with, so what is found has been written
  rcases hfile .plan bytes hbytes with hold | hnew
  · cases hold
  · exact hbytes.trans hnew.symm

/-- On a detour it matters who comes first: tests that are removed when specs are compiled in turn are
overlooked if the spec they belong to comes before the one that makes the missing directory. -/
theorem order_matters_on_detour : ∃ r schedule files w' w'',
    (placesFor "gen/../out").plans.place ≠ (placesFor "gen/../out").tests.place ∧
    Loaded (placesFor "gen/../out") r outdated [firstSpec, secondSpec] ∧
    Interleaves schedule (([firstSpec, secondSpec].map (·.path)).map
      (compileSpec here (settingsFor "gen/../out") r true)) outdated files w' ∧
    (several true (compileSpec here (settingsFor "gen/../out") r true)
      ([firstSpec, secondSpec].map (·.path))).Does outdated files w'' ∧
    w'.tree.file? ["out", "test_second.py"] ≠ none ∧
    w''.tree.file? ["out", "test_second.py"] = none := by
  have hne : (placesFor "gen/../out").plans.place ≠ (placesFor "gen/../out").tests.place := by
    decide +kernel
  have hends : ((interleave secondFirst (compiling "gen/../out" [firstSpec, secondSpec])
      outdated).1.mapM result?).isSome = true := by decide +kernel
  have hok : ((several true (compileSpec here (settingsFor "gen/../out") (tallied here) true)
      ([firstSpec, secondSpec].map (·.path))).run outdated).1.isOk = true := by decide +kernel
  have hloaded : Loaded (placesFor "gen/../out") _ outdated _ := loaded_outdated
  obtain ⟨files, hfiles⟩ := Option.isSome_iff_exists.1 hends
  obtain ⟨files', hdoes⟩ := exists_does_of_isOk hok
  have hrun := interleaves_of_mapM hfiles
  -- both have the reports of the jobs that are decided on at the start
  obtain ⟨jobs, _, hjobs, hturns⟩ := exists_jobs hloaded.sound hloaded.found hrun
  obtain ⟨jobs', hjobs', hfiles', -⟩ :=
    (does_compileSpecs hloaded.sound (.refl _) hloaded.found).1 (Project.does_several.1 hdoes)
  obtain rfl := Except.ok.inj (hjobs.symm.trans hjobs')
  obtain rfl := hfiles'.trans (reports_of_interleaves hne (hloaded.nodup_slugs hjobs) hturns).symm
  exact ⟨_, _, files', _, _, hne, hloaded, hrun, hdoes, by decide +kernel, by decide +kernel⟩

end Project
end Acceptance

import Acceptance.Proofs.Jobs
import Acceptance.Proofs.SharedFiles
/-!
Jobs side by side. Each spec has files of its own, and what is done for one spec leaves those of the
others alone. So it is settled from the start what all jobs together leave, in whatever order they
take turns.
-/
namespace Acceptance

variable {P : Location → Prop} {work : Project.Work} {j : Project.Job}

namespace Tree

variable {t : Tree} {d p : Path}

/-- All that is passed on the way to a directory lies above it or is there. -/
def Straight (t : Tree) (d : Path) : Prop := ∀ l ∈ d.trail, l <+: d.place ∨ t.get? l = some .dir

theorem prefix_follow_of_mem_passed {l m : Location} {names : List String} (h : ".." ∉ names)
    (hm : m ∈ passed l names) : m <+: follow l names := by
  induction names generalizing l with
  | nil => cases hm
  | cons name names ih =>
    obtain ⟨hname, hnames⟩ := not_or.1 (mt List.mem_cons.2 h)
    rcases List.mem_cons.1 hm with rfl | hm
    · rw [follow_of_not_mem h]
      exact List.prefix_append ..
    · exact ih hnames hm

/-- Without a name that leads up there is no detour. -/
theorem straight_of_not_mem (h : ".." ∉ d.names) (t : Tree) : t.Straight d := by
  intro l hl
  left
  rcases List.mem_append.1 hl with hl | hl
  · exact prefix_follow_of_mem_passed h hl
  · obtain rfl := List.mem_singleton.1 hl
    exact List.prefix_refl _

/-- What has a place in such a directory has directories all the way. -/
theorem Straight.way (h : t.Straight p.parent) (hs : t.Sound) (hp : p.Proper) {e : Entry}
    (hget : t.get? p.place = some e) : ∀ l ∈ p.parent.trail, t.get? l = some .dir := by
  intro l hl
  rcases h l hl with ⟨rest, hrest⟩ | hdir
  · rw [hp.place_eq, ← hrest, List.append_assoc] at hget
    exact hs.get?_of_append hget (by simp)
  · exact hdir

end Tree

namespace Project

open Script

variable {root : Path} {settings : Settings} {s : Places root settings} {slug slug' : String}
  {part : Part} {w w' : World} {m : Location}

namespace Places

/-- The places of the files of a spec and of their drafts. -/
def Own (s : Places root settings) (slug : String) (m : Location) : Prop :=
  ∃ part, m = (s.path part slug).place ∨ m = (s.path part slug).draftPlace

theorem own_place : s.Own slug (s.path part slug).place := ⟨part, .inl rfl⟩

theorem own_draftPlace : s.Own slug (s.path part slug).draftPlace := ⟨part, .inr rfl⟩

/-- No place is owned twice. -/
theorem Own.slug_eq (hne : s.plans.place ≠ s.tests.place) (h : s.Own slug m) (h' : s.Own slug' m) :
    slug = slug' := by
  obtain ⟨part, rfl | rfl⟩ := h
  · obtain ⟨part', hplace | hplace⟩ := h'
    · exact (place_path_injective hne hplace).2
    · exact absurd hplace.symm draftPlace_ne
  · obtain ⟨part', hplace | hplace⟩ := h'
    · exact absurd hplace draftPlace_ne
    · exact (place_path_injective hne (Path.draftPlace_injective proper_path proper_path hplace)).2

/-- The directories that are written to are reached without detours through missing places. -/
def Straight (s : Places root settings) (t : Tree) : Prop := ∀ part, t.Straight (s.dir part)

theorem Straight.way (h : s.Straight w.tree) (hs : w.tree.Sound) {e : Entry}
    (hget : w.tree.get? (s.path part slug).place = some e) :
    ∀ l ∈ (s.path part slug).parent.trail, w.tree.get? l = some .dir := by
  refine Tree.Straight.way ?_ hs proper_path hget
  rw [parent_path]
  exact h part

end Places

open Places

theorem Places.Straight.paved (h : s.Straight w.tree) (hs : w.tree.Sound) :
    w.tree.Paved (s.path part slug) := by
  intro hfile
  obtain ⟨bytes, hbytes⟩ := Option.ne_none_iff_exists'.1 hfile
  exact h.way hs (Tree.file?_eq_some.1 hbytes)

/-! The work for one spec amid other work. -/

/-- What work takes away, from what reading the plan gives. -/
def Work.stale (reply : Except FileError ByteArray) : Work → List Part
  | .write _ stale => stale
  | .drop => [.tests, .manifest] ++ match planFileOf reply with
    | .ok true => [.plan]
    | _ => []
  | .rest => []

/-- The group of files that work is on, from what reading the plan gives. -/
def Work.group (s : Places root settings) (slug : String) (reply : Except FileError ByteArray)
    (work : Work) : Script Unit :=
  writeGroup (work.files.map fun f => (s.path f.1 slug, f.2)) ((work.stale reply).map (s.path · slug))

/-- What work sets, from what reading the plan gives. -/
def Work.sets (s : Places root settings) (slug : String) (reply : Except FileError ByteArray)
    (work : Work) : List (Location × Option ByteArray) :=
  groupSets (work.files.map fun f => (s.path f.1 slug, f.2)) ((work.stale reply).map (s.path · slug))

/-- A file that others leave alone is looked at with the same result at any time. -/
theorem planFileOf_replyOf {p : Path} {v : World} (hk : w.tree.KeepsAt P v.tree) (hp : p.Proper)
    (hP : P p.place) (hway : w.tree.Paved p) :
    planFileOf (replyOf v p) = planFileOf (replyOf w p) := by
  cases hfile : w.tree.file? p.place with
  | none =>
    -- nothing can be read in either tree
    have herror (u : World) (hu : u.tree.file? p.place = none) :
        planFileOf (replyOf u p) = .ok false := by
      cases hreply : replyOf u p with
      | error e => exact planFileOf_of_error e
      | ok bytes =>
        obtain ⟨l, hl, hbytes⟩ := Tree.read_eq_ok.1 (replyOf_eq_ok hreply)
        rw [Tree.locate_eq_place hl, hu] at hbytes
        cases hbytes
    rw [herror w hfile, herror v ((hk.files _ hP).trans hfile)]
  | some bytes =>
    have hdirs := hway (by simp [hfile])
    rw [← Path.passed_names hp.parts] at hdirs
    have hfile' := (hk.files _ hP).trans hfile
    refine congrArg planFileOf (replyOf_congr (Tree.read_congr (fun l hl => ?_) ?_))
    · exact ⟨hk.dirs l (hdirs l hl), hdirs l hl⟩
    · rw [Tree.file?_eq_some.1 hfile, Tree.file?_eq_some.1 hfile']

theorem single_isPlanFile (p : Path) : (isPlanFile p).Single := by
  rw [isPlanFile_eq]
  intro reply
  change (ofOutcome (planFileOf reply)).Ended
  cases planFileOf reply <;> trivial

theorem stale_drop {reply : Except FileError ByteArray} {b : Bool} (h : planFileOf reply = .ok b) :
    (Work.drop.stale reply).map (s.path · slug) =
      [s.path .tests slug, s.path .manifest slug] ++ if b then [s.path .plan slug] else [] := by
  rw [Work.stale, h]
  cases b <;> rfl

theorem group_rest (reply : Except FileError ByteArray) : Work.rest.group s slug reply = pure () := by
  change writeGroup [] [] = _
  rw [writeGroup_eq, putGroup, List.mergeSort_nil]
  rfl

/-- All work comes to a group. Only if files are dropped the plan is looked at before. -/
theorem Amid.of_work (h : (work.script s slug).Amid P w () w') (hP : P (s.path .plan slug).place)
    (hway : w.tree.Paved (s.path .plan slug)) :
    ∃ w₁, w.tree.KeepsAt P w₁.tree ∧
      (work.group s slug (replyOf w (s.path .plan slug))).Amid P w₁ () w' ∧
        (work = .drop → ∃ b, planFileOf (replyOf w (s.path .plan slug)) = .ok b) := by
  cases work with
  | rest =>
    refine ⟨w, .refl _, ?_, by simp⟩
    rw [group_rest]
    exact h
  | write files stale => exact ⟨w, .refl _, h, by simp⟩
  | drop =>
    obtain ⟨b, w₁, hlook, hgroup⟩ := Amid.of_bind h
    obtain ⟨w₂, w₃, hbefore, hdoes, hafter⟩ := hlook.exists_does (single_isPlanFile _)
    obtain ⟨hb, rfl⟩ := does_isPlanFile.1 hdoes
    -- others leave the plan alone, so it does not matter when it is looked at
    have hreply := (planFileOf_replyOf hbefore proper_path hP hway).symm.trans hb
    refine ⟨w₁, hbefore.trans hafter, ?_, fun _ => ⟨b, hreply⟩⟩
    rw [Work.group, stale_drop hreply]
    exact hgroup

theorem nodup_files (h : work.Marked) : (work.files.map (·.1)).Nodup := by
  cases work with
  | write files stale => exact h.parts
  | _ => exact List.nodup_nil

theorem groupOwned {files : List (Part × String)} (hparts : (files.map (·.1)).Nodup) {t : Tree}
    (hway : ∀ part, t.Paved (s.path part slug)) (stale : List Part) :
    GroupOwned (s.Own slug) t (files.map fun f => (s.path f.1 slug, f.2))
      (stale.map (s.path · slug)) where
  apart := apart_paths hparts
  drafts := List.forall_mem_map.2 fun _ _ => own_draftPlace
  proper := List.forall_mem_map.2 fun _ _ => proper_path
  owned := List.forall_mem_map.2 fun _ _ => own_place
  way := List.forall_mem_map.2 fun part _ => hway part
  own := by
    refine List.forall_mem_map.2 fun part _ => List.forall_mem_map.2 fun f _ hplace => ?_
    rw [part_of_place hplace]

/-- Work on the files of a spec sets them, whatever is done meanwhile to other files. -/
theorem amid_work (hmarked : work.Marked) (hway : ∀ part, w.tree.Paved (s.path part slug))
    (h : (work.script s slug).Amid (s.Own slug) w () w') :
    w.tree.SetsAt (s.Own slug) w'.tree (work.sets s slug (replyOf w (s.path .plan slug))) ∧
      ∀ f ∈ work.files, ∀ l ∈ (s.dir f.1).trail, w'.tree.get? l = some .dir := by
  obtain ⟨w₁, hkeeps, hgroup, -⟩ := Amid.of_work h own_place (hway .plan)
  have hway₁ (part : Part) : w₁.tree.Paved (s.path part slug) := (hway part).keepsAt hkeeps own_place
  obtain ⟨hset, hdirs⟩ := Amid.writeGroup hgroup (groupOwned (nodup_files hmarked) hway₁ _)
  refine ⟨hset.before hkeeps, fun f hf => ?_⟩
  have hf := hdirs _ (List.mem_map_of_mem hf)
  rwa [parent_path] at hf

/-! All jobs. -/

/-- A job with its report. -/
def Job.call (s : Places root settings) (j : Job) : Script (FileReport String Nat) := do
  j.script s
  return j.report

theorem does_call (h : (j.script s).Does w () w') : (j.call s).Does w j.report w' :=
  does_seq.2 ⟨w', h, does_pure.2 ⟨rfl, rfl⟩⟩

/-- The directories that are made for jobs. -/
def Ways (s : Places root settings) (jobs : List Job) (m : Location) : Prop :=
  ∃ j ∈ jobs, ∃ f ∈ j.work.files, m ∈ (s.dir f.1).trail

/-- What jobs leave. -/
structure Settled (s : Places root settings) (jobs : List Job) (w w' : World) : Prop where
  dirs : ∀ m, w'.tree.get? m = some .dir ↔ w.tree.get? m = some .dir ∨ Ways s jobs m
  own : ∀ j ∈ jobs, w.tree.SetsAt (s.Own j.slug) w'.tree
    (j.work.sets s j.slug (replyOf w (s.path .plan j.slug)))
  kept : ∀ m, (∀ j ∈ jobs, ¬s.Own j.slug m) → w'.tree.file? m = w.tree.file? m

theorem Settled.get?_eq {jobs : List Job} {v : World} (h : Settled s jobs w w')
    (h' : Settled s jobs w v) (m : Location) : w'.tree.get? m = v.tree.get? m := by
  have hdir : w'.tree.get? m = some .dir ↔ v.tree.get? m = some .dir :=
    (h.dirs m).trans (h'.dirs m).symm
  -- a file belongs to a job, which settles it, or to none, and then it is kept
  have hfile : w'.tree.file? m = v.tree.file? m := by
    by_cases hm : ∃ j ∈ jobs, s.Own j.slug m
    · obtain ⟨j, hj, hm⟩ := hm
      exact (h.own j hj).file?_eq (h'.own j hj) hm
    · have hother : ∀ j ∈ jobs, ¬s.Own j.slug m := fun j hj hown => hm ⟨j, hj, hown⟩
      rw [h.kept m hother, h'.kept m hother]
  cases hv : v.tree.file? m with
  | some bytes =>
    rw [hv] at hfile
    rw [Tree.file?_eq_some.1 hfile, Tree.file?_eq_some.1 hv]
  | none =>
    rw [hv] at hfile
    rcases Tree.get?_of_file?_eq_none hv with hnone | hthere
    · rcases Tree.get?_of_file?_eq_none hfile with hgone | hthere
      · rw [hgone, hnone]
      · rw [hdir.1 hthere] at hnone
        cases hnone
    · rw [hdir.2 hthere, hthere]

/-- A job leaves alone what is not its own. -/
theorem sparesAt_script (hP : ∀ m, s.Own j.slug m → ¬P m) : (j.script s).SparesAt P := by
  refine asks_work (fun _ => trivial) (fun _ => trivial) (fun f _ => ?_) fun part => hP _ own_place
  have hdraft := hP (s.path f.1 j.slug).draftPlace own_draftPlace
  exact ⟨fun _ _ => trivial, hdraft, hdraft, hdraft, hP _ own_place⟩

section Pool

variable {jobs : List Job} {schedule : List Nat} {files : List (FileReport String Nat)}

/-- Jobs do not touch what is not theirs, and make no directories but those on their ways. -/
theorem tree_of_interleaves (h : Interleaves schedule (jobs.map (Job.call s)) w files w') :
    w.tree.KeepsAt (fun m => ∀ j ∈ jobs, ¬s.Own j.slug m) w'.tree ∧
      ∀ m, w'.tree.get? m = some .dir → w.tree.get? m = some .dir ∨ Ways s jobs m := by
  let P : Location → Prop := fun m => ∀ j ∈ jobs, ¬s.Own j.slug m
  have hasks : ∀ c ∈ jobs.map (Job.call s),
      c.Asks (fun op => op.SparesAt P ∧ op.MakesAt (Ways s jobs)) fun _ => True := by
    refine List.forall_mem_map.2 fun j hj => ?_
    have hown (m : Location) (hm : s.Own j.slug m) : ¬P m := fun hall => hall j hj hm
    refine Asks.bind (asks_work (fun _ => ⟨trivial, trivial⟩) (fun _ => ⟨trivial, trivial⟩)
      (fun f hf => ?_) fun part => ⟨hown _ own_place, trivial⟩) fun _ _ => trivial
    have hdraft := hown (s.path f.1 j.slug).draftPlace own_draftPlace
    refine ⟨fun q hq => ⟨trivial, j, hj, f, hf, ?_⟩, ⟨hdraft, trivial⟩, ⟨hdraft, trivial⟩,
      ⟨hdraft, hown _ own_place⟩, trivial⟩
    rwa [parent_path] at hq
  have hboth := interleave_tree (w := w)
    (Q := fun t u => t.KeepsAt P u ∧ ∀ m, u.get? m = some .dir → t.get? m = some .dir ∨ Ways s jobs m)
    (fun t => ⟨.refl t, fun _ => .inl⟩)
    (fun t u v htu huv => ⟨htu.1.trans huv.1, fun m hm => (huv.2 m hm).elim (htu.2 m) .inr⟩)
    (fun op w hop => ⟨hop.1.perform w, fun m hm => hop.2.perform w hm⟩) hasks schedule
  rw [h] at hboth
  exact hboth

/-- Each job runs amid the others, which leave its files alone. -/
theorem amid_of_interleaves (hne : s.plans.place ≠ s.tests.place)
    (hslugs : (jobs.map (·.slug)).Nodup)
    (h : Interleaves schedule (jobs.map (Job.call s)) w files w') {i : Nat}
    (hj : jobs[i]? = some j) : files[i]? = some j.report ∧
      ∃ w₁, (j.script s).Amid (s.Own j.slug) w () w₁ ∧ w₁.tree.KeepsAt (s.Own j.slug) w'.tree := by
  have hcall : (jobs.map (Job.call s))[i]? = some (j.call s) := by
    rw [List.getElem?_map, hj]
    rfl
  obtain ⟨file, hfile, hrun⟩ := h.exists_amid (P := s.Own j.slug) hcall fun k c hk hc => by
    rw [List.getElem?_map] at hc
    obtain ⟨j', hj', rfl⟩ := Option.map_eq_some_iff.1 hc
    refine (sparesAt_script fun m hm hm' => hk ?_).bind fun _ _ => trivial
    have hslug := hm.slug_eq hne hm'
    refine (List.getElem?_inj (?_ : k < (jobs.map (·.slug)).length) hslugs).1 ?_
    · rw [List.length_map]
      exact (List.getElem?_eq_some_iff.1 hj').1
    · rw [List.getElem?_map, List.getElem?_map, hj, hj', Option.map_some, Option.map_some, hslug]
  obtain ⟨w₁, hscript, rfl, hkeeps⟩ := Amid.of_seq hrun
  exact ⟨hfile, w₁, hscript, hkeeps⟩

theorem reports_of_interleaves (hne : s.plans.place ≠ s.tests.place)
    (hslugs : (jobs.map (·.slug)).Nodup)
    (h : Interleaves schedule (jobs.map (Job.call s)) w files w') : files = jobs.map (·.report) := by
  refine List.ext_getElem? fun i => ?_
  rw [List.getElem?_map]
  cases hj : jobs[i]? with
  | none =>
    rw [List.getElem?_eq_none_iff] at hj
    have hlength := h.length_eq
    rw [List.length_map] at hlength
    exact List.getElem?_eq_none (hlength ▸ hj)
  | some j => exact (amid_of_interleaves hne hslugs h hj).1

theorem settled_of_interleaves (hne : s.plans.place ≠ s.tests.place)
    (hslugs : (jobs.map (·.slug)).Nodup) (hmarked : ∀ j ∈ jobs, j.work.Marked)
    (hway : ∀ slug part, w.tree.Paved (s.path part slug))
    (h : Interleaves schedule (jobs.map (Job.call s)) w files w') :
    files = jobs.map (·.report) ∧ Settled s jobs w w' := by
  obtain ⟨hkeeps, hfresh⟩ := tree_of_interleaves h
  -- to each job the others are mere surroundings: what it has done at its own locations stays, since
  -- nobody else has a script for them
  have hdone : ∀ j ∈ jobs, w.tree.SetsAt (s.Own j.slug) w'.tree
      (j.work.sets s j.slug (replyOf w (s.path .plan j.slug))) ∧
        ∀ f ∈ j.work.files, ∀ l ∈ (s.dir f.1).trail, w'.tree.get? l = some .dir := by
    intro j hj
    obtain ⟨i, hi⟩ := List.mem_iff_getElem?.1 hj
    obtain ⟨-, w₁, hscript, hafter⟩ := amid_of_interleaves hne hslugs h hi
    obtain ⟨hset, hdirs⟩ := amid_work (hmarked j hj) (hway j.slug) hscript
    exact ⟨hset.after hafter, fun f hf l hl => hafter.dirs l (hdirs f hf l hl)⟩
  refine ⟨reports_of_interleaves hne hslugs h, fun m => ⟨hfresh m, ?_⟩, fun j hj => (hdone j hj).1,
    hkeeps.files⟩
  rintro (hdir | ⟨j, hj, f, hf, hl⟩)
  · exact hkeeps.dirs m hdir
  · exact (hdone j hj).2 f hf m hl

end Pool

end Project
end Acceptance

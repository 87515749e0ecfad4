import Acceptance.Proofs.OwnFiles
/-!
Jobs in turn. If there is room for the files of all specs then jobs that can be done side by side can
also be done one after the other.
-/
namespace Acceptance

open Script

variable {P : Location → Prop} {w w' : World} {p : Path} {α : Type} {c : Script α} {m : Location}

namespace Tree

variable {t : Tree} {ways places : Location → Prop}

/-- No file is on the ways, and no directory is at the places. -/
structure Room (t : Tree) (ways places : Location → Prop) : Prop where
  ways : ∀ l, ways l → t.file? l = none
  places : ∀ m, places m → t.get? m ≠ some .dir

end Tree

/-- The path has a place and gets there on the ways, all names fitting. -/
structure Path.Apt (p : Path) (ways places : Location → Prop) : Prop where
  proper : p.Proper
  usable : p.Usable
  fits : ∀ n ∈ p.parent.names, Tree.NameFits n
  way : ∀ l ∈ p.parent.trail, ways l
  place : places p.place

variable {ways places : Location → Prop}

/-- To draft a file and to swap it in leaves the ways to others alone. -/
theorem Path.Apt.drafts {f : Path × String} (hf : f.1.Apt ways places)
    (hoff : ∀ m, places m → ¬ways m) (hd : (draftOf f.1).Apt ways places) :
    Drafts (fun op => op.SparesAt ways ∧ op.MakesAt ways) f where
  dirs _ hq := ⟨trivial, hf.way _ hq⟩
  write := ⟨hoff _ hd.place, trivial⟩
  back := ⟨hoff _ hd.place, trivial⟩
  swap := ⟨⟨hoff _ hd.place, hoff _ hf.place⟩, trivial⟩

namespace Tree.Room

variable {t : Tree}

theorem parent (h : t.Room ways places) (hp : p.Apt ways places) : t.Open p.parent :=
  ⟨Path.flaw?_parent hp.usable.flaw, Path.size_parent hp.usable.size, hp.fits,
    fun l hl => h.ways l (hp.way l hl)⟩

variable {G : α → Prop}

/-- Work off the ways leaves the room, if it makes directories on the ways only. -/
theorem run (h : w.tree.Room ways places) (hoff : ∀ m, places m → ¬ways m)
    (hc : c.Asks (fun op => op.SparesAt ways ∧ op.MakesAt ways) G) :
    (c.run w).2.tree.Room ways places := by
  induction c generalizing w with
  | done a => exact h
  | stop f => exact h
  | call op next ih =>
    obtain ⟨⟨hspares, hmakes⟩, hnext⟩ := hc
    refine ih _ ⟨fun l hl => ?_, fun m hm hdir => ?_⟩ (hnext _)
    · rw [(hspares.perform w).files l hl]
      exact h.ways l hl
    · rcases hmakes.perform w hdir with hold | hway
      · exact h.places m hm hold
      · exact hoff m hm hway

theorem does {a : α} (h : w.tree.Room ways places) (hoff : ∀ m, places m → ¬ways m)
    (hc : c.Asks (fun op => op.SparesAt ways ∧ op.MakesAt ways) G) (hdoes : c.Does w a w') :
    w'.tree.Room ways places := by
  have hroom := h.run hoff hc
  rwa [show c.run w = (.ok a, w') from hdoes] at hroom

end Tree.Room

namespace Script

/-! Where there is room. -/

theorem exists_does_removeIfThere (hr : w.tree.Room ways places) (hp : p.Apt ways places) :
    ∃ w', (removeIfThere p).Does w () w' := by
  have hfits : ∀ n ∈ p.names, Tree.NameFits n := by
    rw [Path.names_eq hp.proper.parts]
    exact List.forall_mem_append.2 ⟨hp.fits, List.forall_mem_singleton.2 (.inr hp.usable.name)⟩
  have hfree : ∀ l ∈ Tree.passed [] p.names, w.tree.file? l = none := by
    rw [Path.passed_names hp.proper.parts]
    exact (hr.parent hp).free
  have hlocate : w.tree.locate p = w.tree.walk [] p.names := if_neg (Nat.not_lt.2 hp.usable.size)
  rcases Tree.walk_of_free hfits hfree with ⟨l, hl⟩ | hmiss
  · rw [← hlocate] at hl
    obtain rfl := Tree.locate_eq_place hl
    exact exists_removal_of_locate hp.usable.flaw hl (hr.places _ hp.place)
  · -- a directory is missing on the way, and that is taken for a missing file
    have hgone := Tree.remove_of_error (hlocate.trans hmiss)
    exact ⟨w, does_removeIfThere.2 ⟨hp.usable.flaw, .inr ⟨hgone, rfl⟩⟩⟩

variable {ps stale : List Path} {files : List (Path × String)}

theorem exists_does_removals (hr : w.tree.Room ways places) (hoff : ∀ m, places m → ¬ways m)
    (hps : ∀ p ∈ ps, p.Apt ways places) : ∃ w', (ps.forM removeIfThere).Does w () w' := by
  induction ps generalizing w with
  | nil => exact ⟨w, does_forM_nil.2 rfl⟩
  | cons p ps ih =>
    obtain ⟨hp, hps⟩ := List.forall_mem_cons.1 hps
    obtain ⟨w₁, hfirst⟩ := exists_does_removeIfThere hr hp
    have hr₁ := hr.does hoff (asks_removeIfThere ⟨hoff _ hp.place, trivial⟩) hfirst
    obtain ⟨w', hrest⟩ := ih hr₁ hps
    exact ⟨w', does_forM_cons.2 ⟨w₁, hfirst, hrest⟩⟩

/-- A group can be written where there is room. -/
theorem exists_does_writeGroup (hr : w.tree.Room ways places) (hoff : ∀ m, places m → ¬ways m)
    (ha : Apart files) (hfiles : ∀ f ∈ files, f.1.Apt ways places ∧ (draftOf f.1).Apt ways places)
    (hstale : ∀ p ∈ stale.filter fun p => !files.any (·.1 = p), p.Apt ways places) :
    ∃ w', (writeGroup files stale).Does w () w' := by
  have hwritable : w.tree.Writable files := by
    refine ⟨fun f hf => hr.parent (hfiles f hf).1, fun f hf => ?_, fun f hf m hm => ?_⟩
    · exact ⟨(hfiles f hf).1.usable, (hfiles f hf).2.usable⟩
    · have hplace : places m := by
        rcases List.mem_pair.1 hm with rfl | rfl
        · exact (hfiles f hf).1.place
        · exact (hfiles f hf).2.place
      exact ⟨hr.places m hplace, fun g hg hl => hoff m hplace ((hfiles g hg).1.way m hl)⟩
  have hasks : (putGroup files).Asks (fun op => op.SparesAt ways ∧ op.MakesAt ways) fun _ => True :=
    asks_putGroup (fun _ => ⟨trivial, trivial⟩) fun f hf => (hfiles f hf).1.drafts hoff (hfiles f hf).2
  obtain ⟨w₁, hput⟩ := does_putGroup hwritable ha
  obtain ⟨w', hremove⟩ := exists_does_removals (hr.does hoff hasks hput) hoff hstale
  exact ⟨w', does_writeGroup.2 ⟨w₁, hput, hremove⟩⟩

/-! What is found out amid other work. -/

theorem Amid.dirs {a : α} (h : c.Amid P w a w') (hm : w.tree.get? m = some .dir) :
    w'.tree.get? m = some .dir := by
  induction c generalizing w with
  | done b => exact h.2.dirs m hm
  | stop f => exact h.elim
  | call op next ih =>
    obtain ⟨w₁, hw₁, hnext⟩ := h
    exact ih _ hnext ((op.sparesAt_nowhere.perform w₁).dirs m (hw₁.dirs m hm))

/-- What is removed is not a directory. -/
theorem Amid.place_of_removeIfThere (h : (Script.removeIfThere p).Amid P w () w') (hp : p.Proper)
    (hway : ∀ l ∈ p.parent.trail, w.tree.get? l = some .dir) : w.tree.get? p.place ≠ some .dir := by
  intro hdir
  obtain ⟨w₁, w₂, hbefore, hdoes, -⟩ := h.exists_does single_removeIfThere
  obtain ⟨-, hend⟩ := does_removeIfThere.1 hdoes
  cases hl : w₁.tree.locate p with
  | ok l =>
    have hdir₁ := hbefore.dirs _ hdir
    rw [← Tree.locate_eq_place hl] at hdir₁
    rw [Tree.remove_of_dir hl hdir₁] at hend
    simp at hend
  | error cause =>
    rw [Tree.remove_of_error hl] at hend
    obtain ⟨rfl, -⟩ : cause = .notFound ∧ w₂ = w₁ := by simpa using hend
    exact Tree.locate_ne_notFound hp (fun l hl => hbefore.dirs l (hway l hl)) hl

theorem Amid.place_of_removals (h : (ps.forM Script.removeIfThere).Amid P w () w') (hmem : p ∈ ps)
    (hp : p.Proper) (hway : ∀ l ∈ p.parent.trail, w.tree.get? l = some .dir) :
    w.tree.get? p.place ≠ some .dir := by
  induction ps generalizing w with
  | nil => cases hmem
  | cons q ps ih =>
    obtain ⟨w₁, hfirst, hrest⟩ := of_seq h
    rcases List.mem_cons.1 hmem with rfl | hmem
    · exact Amid.place_of_removeIfThere hfirst hp hway
    · exact fun hdir => ih hrest hmem (fun l hl => hfirst.dirs (hway l hl)) (hfirst.dirs hdir)

/-- No directory is at a place that a group sets. -/
theorem Amid.place_of_writeGroup (h : (Script.writeGroup files stale).Amid P w () w')
    (ha : Apart files) (hP : ∀ f ∈ files, P f.1.place ∧ P f.1.draftPlace)
    (hproper : ∀ p ∈ stale, p.Proper)
    (hway : ∀ p ∈ stale, p.place = m → ∀ l ∈ p.parent.trail, w.tree.get? l = some .dir)
    (hm : ∃ c ∈ groupSets files stale, c.1 = m) : w.tree.get? m ≠ some .dir := by
  rw [writeGroup_eq] at h
  obtain ⟨w₁, hput, hremove⟩ := of_seq h
  obtain ⟨hset, -, hdrafts⟩ := Amid.putGroup hput ha fun f hf => (hP f hf).2
  obtain ⟨c, hc, rfl⟩ := hm
  rcases List.mem_append.1 hc with hc | hc
  · obtain ⟨f, hf, hfc⟩ := List.mem_flatMap.1 hc
    rcases List.mem_pair.1 hfc with rfl | rfl
    · intro hdir
      have hfile := hset.set _ hc (hP f hf).1
      rw [Tree.file?_of_dir (hset.dirs _ hdir)] at hfile
      cases hfile
    · exact hdrafts f hf
  · -- a directory is found by the removal, for the way to it is there from the start
    obtain ⟨p, hp, rfl⟩ := List.mem_map.1 hc
    have hstale := List.mem_of_mem_filter hp
    intro hdir
    exact Amid.place_of_removals hremove hp (hproper p hstale)
      (fun l hl => hset.dirs l (hway p hstale rfl l hl)) (hset.dirs _ hdir)

end Script

namespace Project

variable {root : Path} {settings : Settings} {s : Places root settings} {slug : String} {part : Part}
  {work : Work} {reply : Except FileError ByteArray} {v : World}

open Places

namespace Places

/-- The location is passed on the way to a directory that is written to. -/
def OnWay (s : Places root settings) (m : Location) : Prop := ∃ part, m ∈ (s.dir part).trail

/-- The names of the files of a spec fit, also those of the drafts, and none of these files is in
the way of the others. -/
structure Fits (s : Places root settings) (slug : String) : Prop where
  usable : ∀ part, (s.path part slug).Usable ∧ (draftOf (s.path part slug)).Usable
  offWay : ∀ m, s.Own slug m → ¬s.OnWay m

end Places

/-- The places that work is on. -/
def Work.At (s : Places root settings) (slug : String) (reply : Except FileError ByteArray)
    (work : Work) (m : Location) : Prop :=
  ∃ c ∈ work.sets s slug reply, c.1 = m

theorem at_of_mem_files {f : Part × String} (hf : f ∈ work.files) :
    work.At s slug reply (s.path f.1 slug).place ∧
      work.At s slug reply (s.path f.1 slug).draftPlace := by
  have hswap : ∀ c ∈ swapChanges (s.path f.1 slug, f.2), c ∈ work.sets s slug reply := fun c hc =>
    List.mem_append_left _ (List.mem_flatMap.2 ⟨_, List.mem_map_of_mem hf, hc⟩)
  exact ⟨⟨_, hswap _ (.head _), rfl⟩, ⟨_, hswap _ (.tail _ (.head _)), rfl⟩⟩

theorem Work.At.own (h : work.At s slug reply m) : s.Own slug m := by
  obtain ⟨c, hc, rfl⟩ := h
  rcases List.mem_append.1 hc with hc | hc
  · obtain ⟨f, hf, hfc⟩ := List.mem_flatMap.1 hc
    obtain ⟨f, -, rfl⟩ := List.mem_map.1 hf
    rcases List.mem_pair.1 hfc with rfl | rfl
    · exact own_place
    · exact own_draftPlace
  · obtain ⟨p, hp, rfl⟩ := List.mem_map.1 hc
    obtain ⟨part, -, rfl⟩ := List.mem_map.1 (List.mem_of_mem_filter hp)
    exact own_place

theorem Places.Fits.off (h : s.Fits slug) : ∀ m, work.At s slug reply m → ¬s.OnWay m :=
  fun m hm => h.offWay m hm.own

theorem Places.Fits.apt (h : s.Fits slug) (hnames : ∀ n ∈ (s.dir part).names, Tree.NameFits n)
    (hplace : places (s.path part slug).place) : (s.path part slug).Apt s.OnWay places where
  proper := proper_path
  usable := (h.usable part).1
  fits := by rwa [parent_path]
  way l hl := ⟨part, by rwa [parent_path] at hl⟩
  place := hplace

theorem Places.Fits.apt_draftOf (h : s.Fits slug)
    (hnames : ∀ n ∈ (s.dir part).names, Tree.NameFits n)
    (hplace : places (s.path part slug).draftPlace) :
    (draftOf (s.path part slug)).Apt s.OnWay places where
  proper := Path.proper_draftOf _
  usable := (h.usable part).2
  fits := by rwa [Path.parent_draftOf, parent_path]
  way l hl := ⟨part, by rwa [Path.parent_draftOf, parent_path] at hl⟩
  place := hplace

/-- There is room for the work for a spec, and if its files are to be dropped then its plan can be
looked at. -/
structure Work.Can (s : Places root settings) (slug : String) (w : World) (work : Work) : Prop where
  room : w.tree.Room s.OnWay (work.At s slug (replyOf w (s.path .plan slug)))
  look : work = .drop → ∃ b, planFileOf (replyOf w (s.path .plan slug)) = .ok b

theorem Work.Can.exists_does (h : work.Can s slug w) (hmarked : work.Marked) (hfits : s.Fits slug)
    (hnames : ∀ part, ∀ n ∈ (s.dir part).names, Tree.NameFits n) :
    ∃ w', (work.script s slug).Does w () w' := by
  have hgroup : ∃ w', (work.group s slug (replyOf w (s.path .plan slug))).Does w () w' := by
    refine exists_does_writeGroup h.room hfits.off (apart_paths (nodup_files hmarked)) ?_ ?_
    · refine List.forall_mem_map.2 fun f hf =>
        ⟨hfits.apt (hnames _) ?_, hfits.apt_draftOf (hnames _) ?_⟩
      · exact (at_of_mem_files hf).1
      · exact (at_of_mem_files hf).2
    · intro p hp
      obtain ⟨part, -, rfl⟩ := List.mem_map.1 (List.mem_of_mem_filter hp)
      exact hfits.apt (hnames _) ⟨_, List.mem_append_right _ (List.mem_map_of_mem hp), rfl⟩
  obtain ⟨w', hgroup⟩ := hgroup
  refine ⟨w', ?_⟩
  cases work with
  | write files stale => exact hgroup
  | rest => rwa [group_rest] at hgroup
  | drop =>
    obtain ⟨b, hb⟩ := h.look rfl
    rw [Work.group, stale_drop hb] at hgroup
    exact does_bind.2 ⟨b, w, does_isPlanFile.2 ⟨hb, rfl⟩, hgroup⟩

/-- No directory is where work that is done sets a file. -/
theorem place_of_amid (h : (work.script s slug).Amid (s.Own slug) w () w') (hmarked : work.Marked)
    (hs : w.tree.Sound) (hway : s.Straight w.tree)
    (hm : work.At s slug (replyOf w (s.path .plan slug)) m) : w.tree.get? m ≠ some .dir := by
  obtain ⟨w₁, hkeeps, hgroup, -⟩ := Amid.of_work h own_place (hway.paved hs)
  intro hdir
  refine Amid.place_of_writeGroup hgroup (apart_paths (nodup_files hmarked)) ?_ ?_ ?_ hm
    (hkeeps.dirs m hdir)
  · exact List.forall_mem_map.2 fun f _ => ⟨own_place, own_draftPlace⟩
  · exact List.forall_mem_map.2 fun part _ => proper_path
  · refine List.forall_mem_map.2 fun part _ hplace l hl => hkeeps.dirs l ?_
    rw [← hplace] at hdir
    exact hway.way hs hdir l hl

/-- Work that is done amid other work can be done. -/
theorem can_of_amid (h : (work.script s slug).Amid (s.Own slug) w () w')
    (hmarked : work.Marked) (hs : w.tree.Sound) (hway : s.Straight w.tree)
    (hopen : ∀ part, w.tree.Open (s.dir part)) : work.Can s slug w := by
  obtain ⟨-, -, -, hlook⟩ := Amid.of_work h own_place (hway.paved hs)
  refine ⟨⟨?_, fun m hm => place_of_amid h hmarked hs hway hm⟩, hlook⟩
  rintro l ⟨part, hl⟩
  exact (hopen part).free l hl

/-- Work for one spec does not get in the way of work for others. -/
theorem asks_offWay (hfits : s.Fits slug) :
    (work.script s slug).Asks (fun op => op.SparesAt s.OnWay ∧ op.MakesAt s.OnWay) fun _ => True := by
  refine asks_work (fun _ => ⟨trivial, trivial⟩) (fun _ => ⟨trivial, trivial⟩) (fun f _ => ?_)
    fun part => ⟨hfits.offWay _ own_place, trivial⟩
  have hdraft := hfits.offWay (s.path f.1 slug).draftPlace own_draftPlace
  refine ⟨fun q hq => ⟨trivial, f.1, ?_⟩, ⟨hdraft, trivial⟩, ⟨hdraft, trivial⟩,
    ⟨hdraft, hfits.offWay _ own_place⟩, trivial⟩
  rwa [parent_path] at hq

theorem Work.Can.keepsAt (h : work.Can s slug w) (hway : w.tree.Paved (s.path .plan slug))
    (hkeeps : w.tree.KeepsAt (s.Own slug) v.tree)
    (hroom : v.tree.Room s.OnWay (work.At s slug (replyOf w (s.path .plan slug)))) :
    work.Can s slug v := by
  have hreply := planFileOf_replyOf hkeeps proper_path own_place hway
  refine ⟨?_, fun hdrop => hreply ▸ h.look hdrop⟩
  have hsets : work.sets s slug (replyOf v (s.path .plan slug)) =
      work.sets s slug (replyOf w (s.path .plan slug)) := by
    cases work <;> simp only [Work.sets, Work.stale, hreply]
  have hat : work.At s slug (replyOf v (s.path .plan slug)) =
      work.At s slug (replyOf w (s.path .plan slug)) := by
    unfold Work.At
    rw [hsets]
  rwa [hat]

/-- Jobs that can be done at the start can be done in turn. -/
theorem exists_does_jobs {jobs : List Job} (hne : s.plans.place ≠ s.tests.place)
    (hslugs : (jobs.map (·.slug)).Nodup) (hmarked : ∀ j ∈ jobs, j.work.Marked)
    (hfits : ∀ j ∈ jobs, s.Fits j.slug) (hnames : ∀ part, ∀ n ∈ (s.dir part).names, Tree.NameFits n)
    (hway : ∀ j ∈ jobs, w.tree.Paved (s.path .plan j.slug))
    (hcan : ∀ j ∈ jobs, j.work.Can s j.slug w) :
    ∃ w', (jobs.forM (Job.script s)).Does w () w' := by
  induction jobs generalizing w with
  | nil => exact ⟨w, does_forM_nil.2 rfl⟩
  | cons j jobs ih =>
    obtain ⟨hj, hslugs⟩ := List.nodup_cons.1 hslugs
    obtain ⟨hjmarked, hmarked⟩ := List.forall_mem_cons.1 hmarked
    obtain ⟨hjfits, hfits⟩ := List.forall_mem_cons.1 hfits
    obtain ⟨-, hway⟩ := List.forall_mem_cons.1 hway
    obtain ⟨hjcan, hcan⟩ := List.forall_mem_cons.1 hcan
    obtain ⟨w₁, hfirst⟩ := hjcan.exists_does hjmarked hjfits hnames
    -- the first job touches neither the files of the others nor the ways to them
    have hkeeps : ∀ k ∈ jobs, w.tree.KeepsAt (s.Own k.slug) w₁.tree := by
      intro k hk
      have hspares : (j.script s).SparesAt (s.Own k.slug) := by
        refine sparesAt_script fun m hm hm' => hj ?_
        exact List.mem_map.2 ⟨k, hk, (hm.slug_eq hne hm').symm⟩
      have hkept := hspares.keepsAt w
      rwa [show (j.script s).run w = (.ok (), w₁) from hfirst] at hkept
    obtain ⟨w', hrest⟩ := ih hslugs hmarked hfits
      (fun k hk => (hway k hk).keepsAt (hkeeps k hk) own_place) fun k hk =>
        (hcan k hk).keepsAt (hway k hk) (hkeeps k hk) <|
          (hcan k hk).room.does (hfits k hk).off (asks_offWay hjfits) hfirst
    exact ⟨w', does_forM_cons.2 ⟨w₁, hfirst, hrest⟩⟩

end Project
end Acceptance

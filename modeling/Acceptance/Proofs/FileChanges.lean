import Acceptance.Proofs.FileGroups
/-!
What work on files comes to: some files are set to bytes or to nothing and all others are kept. Work
that succeeds in one tree succeeds in every tree that has no more directories and no more files in
the way.
-/
namespace Acceptance

open Script

/-- Files with what they are set to. -/
abbrev Changes := List (Path × Option ByteArray)

namespace Tree

variable {t t' t₁ t₂ u u' : Tree} {p q : Path} {m : Location} {as bs cs : Changes}

/-- The files are set, and no directory is new but those on the ways to them. -/
structure Sets (t t' : Tree) (cs : Changes) : Prop where
  sound : t.Sound → t'.Sound
  set : ∀ c ∈ cs, t'.file? c.1.place = c.2
  kept : ∀ m, (∀ c ∈ cs, c.1.place ≠ m) → t'.file? m = t.file? m
  dirs : ∀ m, t.get? m = some .dir → t'.get? m = some .dir
  fresh : ∀ m, t'.get? m = some .dir →
    t.get? m = some .dir ∨ ∃ c ∈ cs, c.2 ≠ none ∧ m ∈ c.1.parent.trail
  reach : ∀ c ∈ cs, c.2 ≠ none → t'.Leads c.1.parent ∧ c.1.Usable

namespace Sets

theorem refl (t : Tree) : t.Sets t [] :=
  ⟨id, by simp, fun _ _ => rfl, fun _ => id, fun _ => .inl, by simp⟩

/-- Nothing has to be done for files that are away. -/
theorem of_none (h : ∀ c ∈ cs, c.2 = none ∧ t.file? c.1.place = none) : t.Sets t cs :=
  ⟨id, fun c hc => (h c hc).2.trans (h c hc).1.symm, fun _ _ => rfl, fun _ => id, fun _ => .inl,
    fun c hc hsome => absurd (h c hc).1 hsome⟩

/-- Changes one after the other are one change, if they do not contradict each other. -/
theorem append (h₁ : t.Sets t₁ as) (h₂ : t₁.Sets t₂ bs)
    (hagree : ∀ a ∈ as, ∀ b ∈ bs, a.1.place = b.1.place → a.2 = b.2) : t.Sets t₂ (as ++ bs) := by
  refine ⟨fun h => h₂.sound (h₁.sound h), List.forall_mem_append.2 ⟨fun a ha => ?_, h₂.set⟩,
    fun m hm => ?_, fun m hm => h₂.dirs m (h₁.dirs m hm), fun m hm => ?_,
    List.forall_mem_append.2 ⟨fun a ha hsome => ?_, h₂.reach⟩⟩
  · by_cases hb : ∃ b ∈ bs, b.1.place = a.1.place
    · obtain ⟨b, hb, hplace⟩ := hb
      rw [← hplace, h₂.set b hb, hagree a ha b hb hplace.symm]
    · rw [h₂.kept _ fun b hb' hplace => hb ⟨b, hb', hplace⟩, h₁.set a ha]
  · obtain ⟨hma, hmb⟩ := List.forall_mem_append.1 hm
    rw [h₂.kept m hmb, h₁.kept m hma]
  · rcases h₂.fresh m hm with hdir | ⟨b, hb, hsome⟩
    · rcases h₁.fresh m hdir with hdir | ⟨a, ha, hsome⟩
      · exact .inl hdir
      · exact .inr ⟨a, List.mem_append_left _ ha, hsome⟩
    · exact .inr ⟨b, List.mem_append_right _ hb, hsome⟩
  · obtain ⟨hleads, husable⟩ := h₁.reach a ha hsome
    exact ⟨hleads.mono fun l _ => h₂.dirs l, husable⟩

/-- Files that are set to nothing stay away, and no other file is new. -/
theorem file?_of_none (h : t.Sets t' cs) (hnone : ∀ c ∈ cs, c.2 = none) (hm : t'.file? m ≠ none) :
    t'.file? m = t.file? m := by
  refine h.kept m fun c hc hplace => hm ?_
  rw [← hplace, h.set c hc, hnone c hc]

end Sets

/-- If a file is at the place of a path then the path leads there. -/
def Reaches (t : Tree) (p : Path) : Prop := t.file? p.place ≠ none → t.Leads p.parent ∧ p.Usable

theorem Reaches.mono (h : t.Reaches p) (hfile : t'.file? p.place ≠ none → t.file? p.place ≠ none)
    (hdirs : ∀ m, t.get? m = some .dir → t'.get? m = some .dir) : t'.Reaches p := by
  intro hthere
  obtain ⟨hleads, husable⟩ := h (hfile hthere)
  exact ⟨hleads.mono fun l _ => hdirs l, husable⟩

/-! Trees with less in the way. -/

/-- The first tree has no directory that the second lacks, and on the given ways no file. -/
structure Under (ways : Location → Prop) (u t : Tree) : Prop where
  dirs : ∀ m, u.get? m = some .dir → t.get? m = some .dir
  files : ∀ m, ways m → u.file? m ≠ none → t.file? m ≠ none

variable {ways : Location → Prop}

theorem Under.sets (h : Under ways u t) (hu : u.Sets u' cs) (ht : t.Sets t' cs) :
    Under ways u' t' := by
  refine ⟨fun m hm => ?_, fun m hway hfile => ?_⟩
  · rcases hu.fresh m hm with hdir | ⟨c, hc, hsome, hl⟩
    · exact ht.dirs m (h.dirs m hdir)
    · exact (ht.reach c hc hsome).1.way m hl
  · by_cases hc : ∃ c ∈ cs, c.1.place = m
    · obtain ⟨c, hc, rfl⟩ := hc
      rw [ht.set c hc, ← hu.set c hc]
      exact hfile
    · rw [hu.kept m fun c hc' hplace => hc ⟨c, hc', hplace⟩] at hfile
      rw [ht.kept m fun c hc' hplace => hc ⟨c, hc', hplace⟩]
      exact h.files m hway hfile

/-- Where there is less in the way, a walk fails for want of a directory or as it did. -/
theorem Under.walk_error (h : Under ways u t) {l : Location} {names : List String} {cause : OsCause}
    (hways : ∀ m ∈ passed l names, ways m) (hwalk : u.walk l names = .error cause) :
    cause = .notFound ∨ t.walk l names = .error cause := by
  induction names generalizing l with
  | nil => cases hwalk
  | cons name names ih =>
    obtain ⟨hl, hrest⟩ := List.forall_mem_cons.1 hways
    rw [walk] at hwalk ⊢
    cases hget : u.get? l with
    | none =>
      rw [hget] at hwalk
      exact .inl (Except.error.inj hwalk).symm
    | some e =>
      rw [hget] at hwalk
      cases e with
      | file bytes =>
        have hfile := h.files l hl (by rw [file?_eq_some.2 hget]; simp)
        obtain ⟨bytes', hbytes⟩ := Option.ne_none_iff_exists'.1 hfile
        rw [file?_eq_some.1 hbytes]
        exact .inr hwalk
      | dir =>
        have hrest' := ih hrest
        rw [h.dirs l hget]
        rw [step] at hrest'
        split at hrest'
        · next hup =>
          simp only [hup, if_true] at hwalk ⊢
          exact hrest' hwalk
        · next hup =>
          simp only [hup, if_false] at hwalk ⊢
          by_cases hlong : name.utf8ByteSize > maxNameSize
          · rw [if_pos hlong] at hwalk ⊢
            exact .inr hwalk
          · rw [if_neg hlong] at hwalk ⊢
            exact hrest' hwalk

theorem Under.locate_error (h : Under ways u t) {cause : OsCause} (hparts : p.parts ≠ [])
    (hways : ∀ l ∈ p.parent.trail, ways l) (hlocate : u.locate p = .error cause) :
    cause = .notFound ∨ t.locate p = .error cause := by
  rw [← Path.passed_names hparts] at hways
  rw [locate] at hlocate ⊢
  split at hlocate
  · next hlong =>
    rw [if_pos hlong]
    exact .inr hlocate
  · next hlong =>
    rw [if_neg hlong]
    exact h.walk_error hways hlocate

theorem Under.locate_ok (h : Under ways u t) {l : Location} (hlocate : u.locate p = .ok l) :
    t.locate p = .ok l := by
  obtain ⟨hsize, hl, hfits, hpassed⟩ := locate_eq_ok.1 hlocate
  exact locate_eq_ok.2 ⟨hsize, hl, hfits, fun m hm => h.dirs m (hpassed m hm)⟩

theorem Writable.under (h : Under ways u t) {files : List (Path × String)} (ht : t.Writable files)
    (hways : ∀ f ∈ files, ∀ l ∈ f.1.parent.trail, ways l) : u.Writable files := by
  refine ⟨fun f hf => ?_, ht.usable, fun f hf m hm => ?_⟩
  · have hopen := ht.way f hf
    refine ⟨hopen.flaw, hopen.size, hopen.fits, fun l hl => ?_⟩
    by_contra hfile
    exact h.files l (hways f hf l hl) hfile (hopen.free l hl)
  · obtain ⟨hdir, hoff⟩ := ht.clear f hf m hm
    exact ⟨fun hm' => hdir (h.dirs m hm'), hoff⟩

/-- A group that is written sets its files. No draft was there before. -/
theorem Wrote.sets {files : List (Path × String)} (h : t.Wrote t' files) (hw : t.Writable files)
    (hdrafts : ∀ f ∈ files, t.file? f.1.draftPlace = none) :
    t.Sets t' (files.map fun f => (f.1, some (Text.encode f.2))) := by
  have hnotDir : ∀ f ∈ files, ∀ m ∈ [f.1.place, f.1.draftPlace], t'.get? m ≠ some .dir := by
    intro f hf m hm
    rcases List.mem_pair.1 hm with rfl | rfl
    · rw [file?_eq_some.1 (h.target f hf)]
      simp
    · rw [h.gone f hf]
      simp
  refine ⟨h.sound, List.forall_mem_map.2 h.target, fun m hm => ?_, fun m hm => ?_, fun m hm => ?_,
    List.forall_mem_map.2 fun f hf _ => ⟨⟨(hw.way f hf).fits, h.way f hf⟩, (hw.usable f hf).1⟩⟩
  · have hplace := List.forall_mem_map.1 hm
    by_cases hdraft : ∃ f ∈ files, m = f.1.draftPlace
    · obtain ⟨f, hf, rfl⟩ := hdraft
      rw [Tree.file?_of_none (h.gone f hf), hdrafts f hf]
    · by_cases hway : ∃ f ∈ files, m ∈ f.1.parent.trail
      · obtain ⟨f, hf, hl⟩ := hway
        rw [file?_of_dir (h.way f hf m hl), (hw.way f hf).free m hl]
      · exact file?_congr (h.kept m fun f hf => ⟨(hplace f hf).symm, fun he => hdraft ⟨f, hf, he⟩,
          fun hl => hway ⟨f, hf, hl⟩⟩)
  · by_cases hway : ∃ f ∈ files, m ∈ f.1.parent.trail
    · obtain ⟨f, hf, hl⟩ := hway
      exact h.way f hf m hl
    · rw [h.kept m fun f hf => ⟨?_, ?_, fun hl => hway ⟨f, hf, hl⟩⟩, hm]
      · rintro rfl
        exact (hw.clear f hf _ (by simp)).1 hm
      · rintro rfl
        exact (hw.clear f hf _ (by simp)).1 hm
  · by_cases hway : ∃ f ∈ files, m ∈ f.1.parent.trail
    · obtain ⟨f, hf, hl⟩ := hway
      exact .inr ⟨_, List.mem_map_of_mem hf, by simp, hl⟩
    · rw [h.kept m fun f hf => ⟨?_, ?_, fun hl => hway ⟨f, hf, hl⟩⟩] at hm
      · exact .inl hm
      · rintro rfl
        exact hnotDir f hf _ (by simp) hm
      · rintro rfl
        exact hnotDir f hf _ (by simp) hm

theorem sets_erase (hp : p.Proper) (hfile : t.file? p.place ≠ none) :
    t.Sets (t.erase p.place) [(p, none)] := by
  obtain ⟨bytes, hbytes⟩ := Option.ne_none_iff_exists'.1 hfile
  have hdir : t.get? p.place ≠ some .dir := by
    rw [file?_eq_some.1 hbytes]
    simp
  have hgone : (t.erase p.place).get? p.place = none := by
    refine get?_erase_self ?_ t
    rw [hp.place_eq]
    simp
  refine ⟨fun hs => hs.erase hdir, List.forall_mem_singleton.2 (Tree.file?_of_none hgone),
    fun m hm => ?_, fun m hm => ?_, fun m hm => ?_, by simp⟩
  · exact file?_congr (get?_erase_of_ne (List.forall_mem_singleton.1 hm).symm t)
  · rw [get?_erase_of_ne _ t, hm]
    rintro rfl
    exact hdir hm
  · rw [get?_erase_of_ne _ t] at hm
    · exact .inl hm
    · rintro rfl
      rw [hgone] at hm
      cases hm

end Tree

namespace Script

variable {w w' v : World} {p : Path} {ways : Location → Prop}

theorem sets_remove (hp : p.Proper) (h : (remove p).Does w () w') :
    w.tree.Sets w'.tree [(p, none)] := by
  obtain ⟨-, t, hremove, rfl⟩ := does_remove.1 h
  obtain ⟨l, hl, hfile, rfl⟩ := Tree.remove_eq_ok.1 hremove
  rw [Tree.locate_eq_place hl] at hfile ⊢
  exact Tree.sets_erase hp hfile

theorem sets_removeIfThere (hp : p.Proper) (hreach : w.tree.Reaches p)
    (h : (removeIfThere p).Does w () w') : w.tree.Sets w'.tree [(p, none)] := by
  obtain ⟨hflaw, ⟨t, hremove, rfl⟩ | ⟨hmiss, rfl⟩⟩ := does_removeIfThere.1 h
  · exact sets_remove hp (does_remove.2 ⟨hflaw, t, hremove, rfl⟩)
  · have hnone : w'.tree.file? p.place = none := by
      by_contra hfile
      obtain ⟨hleads, husable⟩ := hreach hfile
      have hl := (Tree.locate_of_proper hp).2 ⟨rfl, hleads, husable.size, husable.name⟩
      have hok := Tree.remove_eq_ok.2 ⟨_, hl, hfile, rfl⟩
      rw [hok] at hmiss
      cases hmiss
    exact .of_none (List.forall_mem_singleton.2 ⟨rfl, hnone⟩)

theorem does_removeIfThere_under (hu : Tree.Under ways v.tree w.tree) (hp : p.Proper)
    (hways : ∀ l ∈ p.parent.trail, ways l) (h : (removeIfThere p).Does w () w') :
    ∃ v', (removeIfThere p).Does v () v' := by
  obtain ⟨hflaw, hw⟩ := does_removeIfThere.1 h
  have hmissing : v.tree.remove p = .error .notFound → ∃ v', (removeIfThere p).Does v () v' :=
    fun hmiss => ⟨v, does_removeIfThere.2 ⟨hflaw, .inr ⟨hmiss, rfl⟩⟩⟩
  cases hl : v.tree.locate p with
  | error cause =>
    rcases hu.locate_error hp.parts hways hl with rfl | hcause
    · exact hmissing (Tree.remove_of_error hl)
    · rw [Tree.remove_of_error hcause] at hw
      obtain ⟨t, hok, -⟩ | ⟨hmiss, -⟩ := hw
      · cases hok
      · rw [Except.error.inj hmiss] at hl
        exact hmissing (Tree.remove_of_error hl)
  | ok l =>
    refine exists_removal_of_locate hflaw hl fun hdir => ?_
    rw [Tree.remove_of_dir (hu.locate_ok hl) (hu.dirs l hdir)] at hw
    obtain ⟨t, hok, -⟩ | ⟨hmiss, -⟩ := hw
    · cases hok
    · cases hmiss

/-! Removals one after the other. -/

theorem reaches_of_sets {t t' : Tree} {cs : Changes} (h : t.Sets t' cs)
    (hnone : ∀ c ∈ cs, c.2 = none) (hp : t.Reaches p) : t'.Reaches p :=
  hp.mono (fun hfile => by rwa [h.file?_of_none hnone hfile] at hfile) h.dirs

theorem sets_removals {ps : List Path} (hproper : ∀ p ∈ ps, p.Proper)
    (hreach : ∀ p ∈ ps, w.tree.Reaches p) (h : (ps.forM removeIfThere).Does w () w') :
    w.tree.Sets w'.tree (ps.map fun p => (p, none)) := by
  induction ps generalizing w with
  | nil =>
    rw [← does_forM_nil.1 h]
    exact .refl _
  | cons p ps ih =>
    obtain ⟨hp, hps⟩ := List.forall_mem_cons.1 hproper
    obtain ⟨hpreach, hreach⟩ := List.forall_mem_cons.1 hreach
    obtain ⟨w₁, hfirst, hrest⟩ := does_forM_cons.1 h
    have hset := sets_removeIfThere hp hpreach hfirst
    have hsets := ih hps (fun q hq => reaches_of_sets hset (by simp) (hreach q hq)) hrest
    refine hset.append hsets fun a ha b hb _ => ?_
    obtain ⟨q, -, rfl⟩ := List.mem_map.1 hb
    rw [List.mem_singleton.1 ha]

theorem does_removals_under {ps : List Path} (hu : Tree.Under ways v.tree w.tree)
    (hproper : ∀ p ∈ ps, p.Proper) (hways : ∀ p ∈ ps, ∀ l ∈ p.parent.trail, ways l)
    (hw : ∀ p ∈ ps, w.tree.Reaches p) (hv : ∀ p ∈ ps, v.tree.Reaches p)
    (h : (ps.forM removeIfThere).Does w () w') : ∃ v', (ps.forM removeIfThere).Does v () v' := by
  induction ps generalizing w v with
  | nil => exact ⟨v, does_forM_nil.2 rfl⟩
  | cons p ps ih =>
    obtain ⟨hp, hps⟩ := List.forall_mem_cons.1 hproper
    obtain ⟨hpways, hpsways⟩ := List.forall_mem_cons.1 hways
    obtain ⟨hwp, hw⟩ := List.forall_mem_cons.1 hw
    obtain ⟨hvp, hv⟩ := List.forall_mem_cons.1 hv
    obtain ⟨w₁, hfirst, hrest⟩ := does_forM_cons.1 h
    obtain ⟨v₁, hfirst'⟩ := does_removeIfThere_under hu hp hpways hfirst
    have hwset := sets_removeIfThere hp hwp hfirst
    have hvset := sets_removeIfThere hp hvp hfirst'
    obtain ⟨v', hrest'⟩ := ih (hu.sets hvset hwset) hps hpsways
      (fun q hq => reaches_of_sets hwset (by simp) (hw q hq))
      (fun q hq => reaches_of_sets hvset (by simp) (hv q hq)) hrest
    exact ⟨v', does_forM_cons.2 ⟨v₁, hfirst', hrest'⟩⟩

/-! Groups. -/

/-- What writing a group and removing what is stale sets. -/
def groupChanges (files : List (Path × String)) (stale : List Path) : Changes :=
  files.map (fun f => (f.1, some (Text.encode f.2))) ++
    (stale.filter fun p => !files.any (·.1 = p)).map fun p => (p, none)

/-- The files of a group and the stale ones have places of their own, no draft is there, and what
is stale can be found. -/
structure GroupFits (t : Tree) (files : List (Path × String)) (stale : List Path) : Prop where
  apart : Apart files
  drafts : ∀ f ∈ files, t.file? f.1.draftPlace = none
  proper : ∀ p ∈ stale, p.Proper
  reach : ∀ p ∈ stale, t.Reaches p
  own : ∀ p ∈ stale, ∀ f ∈ files, p.place = f.1.place → f.1 = p

variable {files : List (Path × String)} {stale : List Path}

/-- What is removed after a group is written is not one of its files. -/
theorem place_ne_of_filter (hown : ∀ p ∈ stale, ∀ f ∈ files, p.place = f.1.place → f.1 = p) :
    ∀ p ∈ stale.filter fun p => !files.any (·.1 = p), p ∈ stale ∧ ∀ f ∈ files, f.1.place ≠ p.place := by
  intro p hp
  obtain ⟨hstale, hnot⟩ := List.mem_filter.1 hp
  refine ⟨hstale, fun f hf hplace => ?_⟩
  have hany : files.any (·.1 = p) = true :=
    List.any_eq_true.2 ⟨f, hf, decide_eq_true (hown p hstale f hf hplace.symm)⟩
  rw [hany] at hnot
  cases hnot

theorem GroupFits.place_ne {t : Tree} (hfit : GroupFits t files stale) :
    ∀ p ∈ stale.filter fun p => !files.any (·.1 = p), p ∈ stale ∧ ∀ f ∈ files, f.1.place ≠ p.place :=
  place_ne_of_filter hfit.own

theorem GroupFits.reach_after {t t' : Tree} (hfit : GroupFits t files stale)
    (hset : t.Sets t' (files.map fun f => (f.1, some (Text.encode f.2)))) :
    ∀ p ∈ stale.filter fun p => !files.any (·.1 = p), t'.Reaches p := by
  intro p hp
  obtain ⟨hstale, hplace⟩ := hfit.place_ne p hp
  refine (hfit.reach p hstale).mono (fun hfile => ?_) hset.dirs
  rwa [hset.kept _ (List.forall_mem_map.2 hplace)] at hfile

theorem sets_writeGroup (hfit : GroupFits w.tree files stale)
    (h : (writeGroup files stale).Does w () w') :
    w.tree.Sets w'.tree (groupChanges files stale) := by
  obtain ⟨w₁, hput, hremove⟩ := does_writeGroup.1 h
  have hset := (hput.wrote hfit.apart).sets (hput.writable hfit.apart) hfit.drafts
  have hproper : ∀ p ∈ stale.filter fun p => !files.any (·.1 = p), p.Proper :=
    fun p hp => hfit.proper p (hfit.place_ne p hp).1
  refine hset.append (sets_removals hproper (hfit.reach_after hset) hremove) fun a ha b hb hplace => ?_
  obtain ⟨f, hf, rfl⟩ := List.mem_map.1 ha
  obtain ⟨p, hp, rfl⟩ := List.mem_map.1 hb
  exact absurd hplace ((hfit.place_ne p hp).2 f hf)

/-- A group that can be written can be written where less is in the way. -/
theorem does_writeGroup_under (hu : Tree.Under ways v.tree w.tree)
    (hw : GroupFits w.tree files stale) (hv : GroupFits v.tree files stale)
    (hfiles : ∀ f ∈ files, ∀ l ∈ f.1.parent.trail, ways l)
    (hstale : ∀ p ∈ stale, ∀ l ∈ p.parent.trail, ways l)
    (h : (writeGroup files stale).Does w () w') : ∃ v', (writeGroup files stale).Does v () v' := by
  obtain ⟨w₁, hput, hremove⟩ := does_writeGroup.1 h
  have hwritable := (hput.writable hw.apart).under hu hfiles
  obtain ⟨v₁, hput'⟩ := does_putGroup hwritable hv.apart
  have hwset := (hput.wrote hw.apart).sets (hput.writable hw.apart) hw.drafts
  have hvset := (hput'.wrote hv.apart).sets hwritable hv.drafts
  have hproper : ∀ p ∈ stale.filter fun p => !files.any (·.1 = p), p.Proper :=
    fun p hp => hw.proper p (hw.place_ne p hp).1
  obtain ⟨v', hremove'⟩ := does_removals_under (hu.sets hvset hwset) hproper
    (fun p hp => hstale p (hw.place_ne p hp).1) (hw.reach_after hwset) (hv.reach_after hvset) hremove
  exact ⟨v', does_writeGroup.2 ⟨v₁, hput', hremove'⟩⟩

end Script
end Acceptance

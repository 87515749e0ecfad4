import Acceptance.Proofs.FileChanges
import Acceptance.Proofs.KeptFiles
/-!
What a group of files that could not be written leaves. Where a draft fails, all drafts are taken back
and no file is changed. Where a directory is found in the place of a file, the files before it have been
changed and the drafts of the others are left.
-/
namespace Acceptance

open Script

/-! A path is not longer than that of its draft. -/

namespace Path

variable {p : Path}

theorem size_draftName (name : String) : name.utf8ByteSize ≤ (s!".{name}.tmp").utf8ByteSize := by
  have happend : s!".{name}.tmp" = "." ++ name ++ ".tmp" := rfl
  rw [happend, String.utf8ByteSize_append, String.utf8ByteSize_append]
  omega

theorem size_join_concat {q r : Phrase} (h : q.visible.utf8ByteSize ≤ r.visible.utf8ByteSize)
    (ps : List Phrase) : (Phrase.join "/" (ps ++ [q])).visible.utf8ByteSize ≤
      (Phrase.join "/" (ps ++ [r])).visible.utf8ByteSize := by
  by_cases hps : ps = []
  · rw [hps]
    exact h
  · simp only [join_concat hps, size_visible_append]
    omega

theorem size_text (h : p.parts ≠ []) : p.text.utf8ByteSize = (p.root : Phrase).visible.utf8ByteSize +
    (Phrase.join "/" p.parts).visible.utf8ByteSize := by
  rw [text, phrase, if_neg (by simp [h]), size_visible_append]

theorem size_text_draftOf (h : p.parts ≠ []) :
    p.text.utf8ByteSize ≤ (draftOf p).text.utf8ByteSize := by
  have hlast : (p.parts.getLast h).visible = p.name := by
    rw [Path.name, names, List.getLast?_map, List.getLast?_eq_some_getLast h]
    rfl
  have hname : (p.parts.getLast h).visible.utf8ByteSize ≤
      (Phrase.ofText s!".{p.name}.tmp").visible.utf8ByteSize := by
    rw [hlast, Phrase.visible_ofText]
    apply size_draftName
  have hjoin := size_join_concat hname p.parts.dropLast
  rw [List.dropLast_append_getLast h] at hjoin
  rw [size_text h, size_text p.proper_draftOf.parts]
  exact Nat.add_le_add_left hjoin _

end Path

namespace Tree

variable {t : Tree} {f : Path × String}

theorem Ready.locate (h : t.Ready f) (hf : f.1.Proper) : t.locate f.1 = .ok f.1.place := by
  have hname : (draftOf f.1).name = s!".{f.1.name}.tmp" := Path.name_child ..
  have hshort := h.usable.name
  rw [hname] at hshort
  apply (locate_of_proper hf).2
  refine ⟨rfl, h.leads, ?_, ?_⟩
  · exact Nat.le_trans (Path.size_text_draftOf hf.parts) h.usable.size
  · exact Nat.le_trans (Path.size_draftName f.1.name) hshort

end Tree

theorem World.update_eq_error {w w' : World} {p : Path} {target : Option Path}
    {r : Except OsCause Tree} {e : FileError} (h : w.update p target r = (.error e, w')) : w' = w := by
  unfold update at h
  split at h
  · exact (Prod.mk.inj h).2.symm
  · cases (Prod.mk.inj h).1
  · exact (Prod.mk.inj h).2.symm

/-- The system has an answer only to paths that something can have. -/
theorem World.flaw?_of_update {w w' : World} {p q : Path} {r : Except OsCause Tree} {e : OsError}
    (h : w.update p (some q) r = (.error (.os e), w')) : q.flaw? = none := by
  unfold update at h
  cases hp : p.flaw? <;> cases hq : q.flaw? <;> cases r <;> simp_all

namespace Script

variable {α β : Type} {w w' : World} {p : Path} {f : Path × String} {files : List (Path × String)}
  {e : OsError} {fault : Fault}

/-- Work in two parts fails in the first part or, after that is done, in the second. -/
theorem run_bind_eq_error {s : Script α} {k : α → Script β} :
    (s >>= k).run w = (.error fault, w') ↔ s.run w = (.error fault, w') ∨
      ∃ a w₁, s.Does w a w₁ ∧ (k a).run w₁ = (.error fault, w') := by
  rw [run_bind]
  unfold Does
  rcases s.run w with ⟨r, w₁⟩
  cases r with
  | ok a => simp
  | error g => simp

theorem run_ofReply_eq_error {r : Except FileError α} (h : (ofReply r).run w = (.error fault, w')) :
    ∃ e, r = .error e ∧ fault = .ofFile e ∧ w' = w := by
  cases r with
  | ok a => cases h
  | error e =>
    cases h
    exact ⟨e, rfl, rfl, rfl⟩

/-! A draft that fails leaves all files as they were. -/

theorem writeText_error {text : String} (h : (writeText p text).run w = (.error fault, w')) :
    w' = w := by
  rcases run_bind_eq_error.1 h with hask | ⟨r, w₁, hask, hreply⟩
  · cases hask
  · obtain ⟨e, rfl, -, rfl⟩ := run_ofReply_eq_error hreply
    exact World.update_eq_error (does_ask.1 hask)

theorem stage_error {text : String} (h : (stage p text).run w = (.error fault, w')) :
    w.tree.KeepsAt (fun _ => True) w'.tree := by
  have hdirs : w.tree.KeepsAt (fun _ => True) ((makeDirs p.parent).run w).2.tree :=
    sparesAt_makeDirs.keepsAt w
  rcases run_bind_eq_error.1 h with hfail | ⟨_, w₁, hdone, h⟩
  · rwa [hfail] at hdirs
  · rw [hdone] at hdirs
    -- the directories are made, and all that can fail now leaves them
    have hw : w' = w₁ := by
      split at h
      · cases h
        rfl
      · rcases run_bind_eq_error.1 h with hwrite | ⟨_, w₂, -, hdone⟩
        · exact writeText_error hwrite
        · cases hdone
    rwa [hw]

end Script

/-! Drafts are taken back. -/

namespace Tree

variable {t t' : Tree} {p : Path} {text : String} {cs : Changes}

/-- Nothing keeps the file of a path from being removed, if there is one. -/
structure Removable (t : Tree) (p : Path) : Prop where
  proper : p.Proper
  leads : t.Leads p.parent
  usable : p.Usable
  notDir : t.get? p.place ≠ some .dir

theorem Removable.reaches (h : t.Removable p) : t.Reaches p := fun _ => ⟨h.leads, h.usable⟩

theorem Removable.sets (h : t.Removable p) (hs : t.Sets t' cs) (hnone : ∀ c ∈ cs, c.2 = none) :
    t'.Removable p := by
  refine ⟨h.proper, h.leads.mono fun l _ => hs.dirs l, h.usable, fun hdir => ?_⟩
  rcases hs.fresh _ hdir with hold | ⟨c, hc, hsome, -⟩
  · exact h.notDir hold
  · exact hsome (hnone c hc)

/-- The files are as they were, but drafts may be missing that were in the way. -/
def Recovers (t t' : Tree) (drafts : List Location) : Prop :=
  ∀ m, t'.file? m = t.file? m ∨ m ∈ drafts ∧ t'.file? m = none

end Tree

namespace Script

variable {w w' w₁ : World} {p : Path} {text : String} {staged : List Staged}
  {files : List (Path × String)} {e : OsError}

theorem exists_removal (h : w.tree.Removable p) : ∃ w', (removeIfThere p).Does w () w' := by
  have hl := (Tree.locate_of_proper h.proper).2 ⟨rfl, h.leads, h.usable.size, h.usable.name⟩
  exact exists_removal_of_locate h.usable.flaw hl h.notDir

theorem exists_removals {ps : List Path} (h : ∀ p ∈ ps, w.tree.Removable p) :
    ∃ w', (ps.forM removeIfThere).Does w () w' := by
  induction ps generalizing w with
  | nil => exact ⟨w, does_forM_nil.2 rfl⟩
  | cons p ps ih =>
    obtain ⟨hp, hps⟩ := List.forall_mem_cons.1 h
    obtain ⟨w₁, hfirst⟩ := exists_removal hp
    have hset := sets_removeIfThere hp.proper hp.reaches hfirst
    obtain ⟨w', hrest⟩ := ih fun q hq => (hps q hq).sets hset (by simp)
    exact ⟨w', does_forM_cons.2 ⟨w₁, hfirst, hrest⟩⟩

theorem stage_keepsAt {s : Staged} (h : (stage p text).Does w s w₁) :
    w.tree.KeepsAt (· ≠ p.draftPlace) w₁.tree := by
  have hspares : (stage p text).SparesAt (· ≠ p.draftPlace) := by
    refine sparesAt_makeDirs.bind fun _ _ => ?_
    dsimp only
    split
    · trivial
    · exact (asks_writeText (not_not.2 rfl)).bind fun _ _ => trivial
  have hkeeps := hspares.keepsAt w
  rwa [h] at hkeeps

theorem removable_stage {s : Staged} (h : (stage p text).Does w s w₁) :
    s.draft.place = p.draftPlace ∧ w₁.tree.file? s.draft.place ≠ none ∧
      w₁.tree.Removable s.draft := by
  obtain ⟨-, rfl, hopen, husable, -, hoff, rfl⟩ := does_stage.1 h
  have hdraft : (w.tree.staged p text).get? (draftOf p).place = _ := Tree.get?_staged_self ..
  refine ⟨rfl, ?_, p.proper_draftOf, ?_, husable, ?_⟩
  · rw [Tree.file?_eq_some.2 hdraft]
    simp
  · rw [Path.parent_draftOf]
    refine hopen.leads.mono fun l hl hdir => ?_
    rw [Tree.get?_staged_of_ne fun he => hoff (he ▸ hl)]
    exact hdir
  · rw [hdraft]
    simp

/-- Drafts that are there stay there when more are written. -/
theorem removable_of_stage {s : Staged} (h : (stage p text).Does w s w₁) {q : Path}
    (hthere : w.tree.file? q.place ≠ none) (hq : w.tree.Removable q) :
    w₁.tree.file? q.place ≠ none ∧ w₁.tree.Removable q := by
  have hkeeps := stage_keepsAt h
  have hthere₁ : w₁.tree.file? q.place ≠ none := by
    by_cases hsame : q.place = p.draftPlace
    · obtain ⟨hplace, hdraft, -⟩ := removable_stage h
      rwa [hsame, ← hplace]
    · rwa [hkeeps.files _ hsame]
  refine ⟨hthere₁, hq.proper, hq.leads.mono fun l _ => hkeeps.dirs l, hq.usable, fun hdir => ?_⟩
  exact hthere₁ (Tree.file?_of_dir hdir)

/-- Drafts that are taken back leave the files as they were. -/
theorem exists_takeBack {t : Tree} (hrem : ∀ s ∈ staged, w.tree.Removable s.draft)
    (hkept : ∀ m, m ∉ staged.map (·.draft.place) → w.tree.file? m = t.file? m) :
    ∃ w', (staged.forM fun s => removeIfThere s.draft).Does w () w' ∧
      t.Recovers w'.tree (staged.map (·.draft.place)) := by
  have hrem' : ∀ d ∈ staged.map (·.draft), w.tree.Removable d := List.forall_mem_map.2 hrem
  obtain ⟨w', hback⟩ := exists_removals hrem'
  have hset := sets_removals (fun d hd => (hrem' d hd).proper) (fun d hd => (hrem' d hd).reaches) hback
  refine ⟨w', by simpa using hback, fun m => ?_⟩
  by_cases hm : m ∈ staged.map (·.draft.place)
  · obtain ⟨s, hs, rfl⟩ := List.mem_map.1 hm
    exact .inr ⟨hm, hset.set (s.draft, none) (List.mem_map_of_mem (List.mem_map_of_mem hs))⟩
  · left
    rw [hset.kept m, hkept m hm]
    refine List.forall_mem_map.2 (List.forall_mem_map.2 fun s hs hplace => hm ?_)
    exact hplace ▸ List.mem_map_of_mem hs

/-- Where a draft fails, the drafts before it are taken back. -/
theorem stageAll_error {t : Tree}
    (hdrafts : ∀ s ∈ staged, w.tree.file? s.draft.place ≠ none ∧ w.tree.Removable s.draft)
    (hkept : ∀ m, m ∉ staged.map (·.draft.place) → w.tree.file? m = t.file? m)
    (h : (stageAll staged files).run w = (.error (.os e), w')) :
    t.Recovers w'.tree (staged.map (·.draft.place) ++ files.map (·.1.draftPlace)) := by
  -- all that is staged so far is there and can be removed: this is what the induction carries along
  induction files generalizing staged w with
  | nil => cases h
  | cons f files ih =>
    obtain ⟨target, text⟩ := f
    rw [stageAll] at h
    rcases run_bind_eq_error.1 h with hnone | ⟨r, w₁, hstage, h⟩
    · rw [run_attempt] at hnone
      cases hnone
    rw [does_attempt] at hstage
    cases r with
    | ok s =>
      obtain ⟨hplace, hdraft⟩ := removable_stage hstage
      suffices hrest : t.Recovers w'.tree
          ((staged ++ [s]).map (·.draft.place) ++ files.map (·.1.draftPlace)) by
        simpa [hplace] using hrest
      refine ih ?_ ?_ h
      · refine List.forall_mem_append.2 ⟨fun s' hs' => ?_, List.forall_mem_singleton.2 hdraft⟩
        exact removable_of_stage hstage (hdrafts s' hs').1 (hdrafts s' hs').2
      · intro m hm
        rw [List.map_append, List.mem_append, not_or] at hm
        rw [(stage_keepsAt hstage).files m, hkept m hm.1]
        rintro rfl
        exact hm.2 (by simp [hplace])
    | error fault =>
      cases fault with
      | os e' =>
        have hkeeps := stage_error hstage
        have hrem : ∀ s ∈ staged, w₁.tree.Removable s.draft := by
          intro s hs
          obtain ⟨hthere, hs⟩ := hdrafts s hs
          refine ⟨hs.proper, hs.leads.mono fun l _ => hkeeps.dirs l, hs.usable, fun hdir => hthere ?_⟩
          rw [← hkeeps.files _ trivial]
          exact Tree.file?_of_dir hdir
        obtain ⟨w₂, hback, hrecovers⟩ :=
          exists_takeBack hrem fun m hm => (hkeeps.files m trivial).trans (hkept m hm)
        rw [run_bind_of_does hback] at h
        obtain rfl : w₂ = w' := (Prod.mk.inj h).2
        exact fun m => (hrecovers m).imp_right fun hm => ⟨List.mem_append_left _ hm.1, hm.2⟩
      | _ => cases h

/-! A swap that fails. -/

variable {f : Path × String}

/-- Only a directory keeps a file from being swapped in. -/
theorem swap_error (hf : f.1.Proper) (hready : w.tree.Ready f) (hne : f.1.draftPlace ≠ f.1.place)
    (h : (swapIn ⟨f.1, draftOf f.1⟩).run w = (.error (.os e), w')) :
    w.tree.get? f.1.place = some .dir ∧ w' = w := by
  rcases run_bind_eq_error.1 h with hask | ⟨r, w₁, hask, hreply⟩
  · cases hask
  obtain ⟨e', rfl, he, rfl⟩ := run_ofReply_eq_error hreply
  have hperform := does_ask.1 hask
  refine ⟨by_contra fun hdir => ?_, World.update_eq_error hperform⟩
  cases e' with
  | path flaw => cases he
  | os e' =>
    obtain ⟨-, -, hsize, hname⟩ := (Tree.locate_of_proper hf).1 (hready.locate hf)
    have husable : f.1.Usable := ⟨World.flaw?_of_update hperform, hsize, hname⟩
    have hdone := (does_swap hf hready hne).2 ⟨husable, hdir, rfl⟩
    rw [hdone] at h
    cases h

theorem swaps_error (ha : Apart files) (hready : ∀ f ∈ files, w.tree.Ready f)
    (h : ((files.map fun f => (⟨f.1, draftOf f.1⟩ : Staged)).forM swapIn).run w =
      (.error (.os e), w')) :
    ∃ done f rest, files = done ++ f :: rest ∧ w.tree.get? f.1.place = some .dir ∧
      (∀ g ∈ done, w.tree.get? g.1.place ≠ some .dir) ∧
        w' = { w with tree := w.tree.swappedAll done } := by
  induction files generalizing w with
  | nil => cases h
  | cons f files ih =>
    have hf := List.mem_cons_self (a := f) (l := files)
    have hown := ha.drafts f hf f hf
    rcases run_bind_eq_error.1 h with hfail | ⟨_, w₁, hswap, h⟩
    · obtain ⟨hdir, rfl⟩ := swap_error (ha.proper f hf) (hready f hf) hown hfail
      exact ⟨[], f, files, rfl, hdir, by simp, rfl⟩
    · obtain ⟨-, hdir, rfl⟩ := (does_swap (ha.proper f hf) (hready f hf) hown).1 hswap
      have hsame := Tree.get?_place_swapped ha w.tree
      obtain ⟨done, g, rest, rfl, hgdir, hdone, rfl⟩ :=
        ih ha.tail (Tree.ready_swapped ha hready hdir) h
      refine ⟨f :: done, g, rest, rfl, ?_, List.forall_mem_cons.2 ⟨hdir, fun k hk => ?_⟩, rfl⟩
      · rw [← hsame g (by simp)]
        exact hgdir
      · rw [← hsame k (List.mem_append_left _ hk)]
        exact hdone k hk

end Script

namespace Tree

variable {t t' : Tree} {files done left : List (Path × String)} {m : Location}

theorem file?_stagedAll (h : ∀ f ∈ files, m ≠ f.1.draftPlace) :
    (t.stagedAll files).file? m = t.file? m := by
  induction files generalizing t with
  | nil => rfl
  | cons f files ih =>
    obtain ⟨hf, hrest⟩ := List.forall_mem_cons.1 h
    exact (ih hrest).trans (file?_staged_of_ne hf f.2)

theorem Stageable.perm {files' : List (Path × String)} (hp : files.Perm files')
    (h : t.Stageable files) : t.Stageable files' :=
  ⟨fun f hf => h.parts f (hp.mem_iff.2 hf), fun f hf => h.way f (hp.mem_iff.2 hf),
    fun f hf => h.usable f (hp.mem_iff.2 hf), fun f hf => h.notDir f (hp.mem_iff.2 hf),
    fun f hf g hg => h.offWay f (hp.mem_iff.2 hf) g (hp.mem_iff.2 hg)⟩

/-- Some files are changed, others are drafted only, and the rest is as it was. -/
structure Halved (t t' : Tree) (done left : List (Path × String)) : Prop where
  changed : ∀ g ∈ done, t'.file? g.1.place = some (Text.encode g.2)
  gone : ∀ g ∈ done, t'.file? g.1.draftPlace = none
  drafts : ∀ g ∈ left, t'.file? g.1.draftPlace = some (Text.encode g.2)
  kept : ∀ m, (∀ g ∈ done, m ≠ g.1.place ∧ m ≠ g.1.draftPlace) → (∀ g ∈ left, m ≠ g.1.draftPlace) →
    t'.file? m = t.file? m

theorem Stageable.halved (h : t.Stageable (done ++ left)) (ha : Apart (done ++ left))
    (hdir : ∀ g ∈ done, (t.stagedAll (done ++ left)).get? g.1.place ≠ some .dir) :
    t.Halved ((t.stagedAll (done ++ left)).swappedAll done) done left := by
  have hdone : Apart done := ⟨fun g hg => ha.proper g (List.mem_append_left _ hg),
    (List.pairwise_append.1 ha.places).1,
    fun g hg k hk => ha.drafts g (List.mem_append_left _ hg) k (List.mem_append_left _ hk)⟩
  have hd := h.drafted ha.draftPlaces
  have hs := swapped_swappedAll hdone (fun g hg => h.ready ha g (List.mem_append_left _ hg)) hdir
  refine ⟨hs.target, fun g hg => Tree.file?_of_none (hs.gone g hg), fun g hg => ?_, fun m hm hleft => ?_⟩
  · have hkept := hs.kept g.1.draftPlace fun k hk =>
      ⟨ha.drafts g (List.mem_append_right _ hg) k (List.mem_append_left _ hk),
        ((List.pairwise_append.1 ha.draftPlaces).2.2 k hk g hg).symm⟩
    rw [file?_congr hkept]
    exact hd.draft g (List.mem_append_right _ hg)
  · rw [file?_congr (hs.kept m hm)]
    exact file?_stagedAll (List.forall_mem_append.2 ⟨fun g hg => (hm g hg).2, hleft⟩)

end Tree

namespace Script

variable {w w' : World} {files : List (Path × String)} {stale : List Path} {e : OsError}

theorem putGroup_error (h : (putGroup files).run w = (.error (.os e), w')) :
    ¬w.tree.Stageable files ∧ w.tree.Recovers w'.tree (files.map (·.1.draftPlace)) ∨
      w.tree.Stageable files ∧ (Apart files → ∃ done f rest,
        (files.mergeSort fun a b => a.1.le b.1) = done ++ f :: rest ∧
          (w.tree.get? f.1.place = some .dir ∨ ∃ g ∈ files, f.1.place ∈ g.1.parent.trail) ∧
            w.tree.Halved w'.tree done (f :: rest)) := by
  have hperm := List.mergeSort_perm files fun a b => a.1.le b.1
  rw [putGroup] at h
  generalize (files.mergeSort fun a b => a.1.le b.1) = sorted at h hperm ⊢
  rcases run_bind_eq_error.1 h with hstage | ⟨ss, w₁, hstage, h⟩
  · left
    refine ⟨fun hstageable => ?_, ?_⟩
    · have hdone : (stageAll [] sorted).Does w _ _ :=
        does_stageAll.2 ⟨_, does_stages.2 ⟨hstageable.perm hperm.symm, rfl, rfl⟩, rfl⟩
      rw [hdone] at hstage
      cases hstage
    · intro m
      have hrec := stageAll_error (t := w.tree) (by simp) (fun _ _ => rfl) hstage m
      rwa [List.map_nil, List.nil_append, (hperm.map _).mem_iff] at hrec
  · right
    obtain ⟨_, hss, rfl⟩ := does_stageAll.1 hstage
    obtain ⟨hstageable, rfl, rfl⟩ := does_stages.1 hss
    refine ⟨hstageable.perm hperm, fun ha => ?_⟩
    have ha := ha.perm hperm.symm
    obtain ⟨done, f, rest, rfl, hdir, hdone, rfl⟩ := swaps_error ha (hstageable.ready ha) h
    refine ⟨done, f, rest, rfl, ?_, hstageable.halved ha hdone⟩
    by_contra hnot
    obtain ⟨hdir', hoff⟩ := not_or.1 hnot
    refine (hstageable.place_iff ha (by simp)).2 ⟨hdir', fun g hg hway => ?_⟩ hdir
    exact hoff ⟨g, hperm.mem_iff.1 hg, hway⟩

/-- What is left where the system refuses a part of the work. As long as drafts fail no file is changed.
Once all are drafted, a group of files with places of their own is written but for what a directory in
the place of one of them prevents: that one and all after it. Removals come after the whole group. -/
theorem failed_group_leaves (h : (writeGroup files stale).run w = (.error (.os e), w')) :
    ¬w.tree.Stageable files ∧ w.tree.Recovers w'.tree (files.map (·.1.draftPlace)) ∨
      w.tree.Stageable files ∧ (Apart files →
        (∃ done f rest, (files.mergeSort fun a b => a.1.le b.1) = done ++ f :: rest ∧
          (w.tree.get? f.1.place = some .dir ∨ ∃ g ∈ files, f.1.place ∈ g.1.parent.trail) ∧
            w.tree.Halved w'.tree done (f :: rest)) ∨
        ∃ t, w.tree.Wrote t files ∧
          t.KeepsAt (fun m => ∀ p ∈ stale, p.place ≠ m) w'.tree) := by
  rw [writeGroup_eq] at h
  rcases run_bind_eq_error.1 h with hput | ⟨_, w₁, hput, hremove⟩
  · rcases putGroup_error hput with hdrafts | ⟨hstageable, hswaps⟩
    · exact .inl hdrafts
    · exact .inr ⟨hstageable, fun ha => .inl (hswaps ha)⟩
  · obtain ⟨ss, w₂, hstage, -⟩ := does_bind.1 hput
    obtain ⟨_, hss, -⟩ := does_stageAll.1 hstage
    have hstageable := (does_stages.1 hss).1.perm (List.mergeSort_perm ..)
    refine .inr ⟨hstageable, fun ha => .inr ⟨w₁.tree, hput.wrote ha, ?_⟩⟩
    have hspares : ((stale.filter fun p => !files.any (·.1 = p)).forM removeIfThere).SparesAt
        fun m => ∀ p ∈ stale, p.place ≠ m :=
      .forM fun p hp => sparesAt_removeIfThere fun hall => hall p (List.mem_of_mem_filter hp) rfl
    have hkeeps := hspares.keepsAt w₁
    rwa [hremove] at hkeeps

/-! A file, and a directory where a file should be. -/

def crowded : World := { tree := ⟨[(["a"], .file (Text.encode "old")), (["b"], .dir)]⟩ }

def letters : List (Path × String) := [(.ofText "a", "new"), (.ofText "b", "new")]

def crowdedAfter : World :=
  { tree := ⟨[(["a"], .file (Text.encode "new")), ([".b.tmp"], .file (Text.encode "new")),
      (["b"], .dir)]⟩ }

theorem run_letters : (writeGroup letters []).run crowded =
    (.error (.os ⟨.isADirectory, ".b.tmp", some "b"⟩), crowdedAfter) := by
  have hsorted : (letters.mergeSort fun a b => a.1.le b.1) = letters :=
    List.mergeSort_of_pairwise (by decide +kernel)
  rw [writeGroup, hsorted]
  rfl

theorem failed_group_leaves_letters :
    (writeGroup letters []).run crowded =
        (.error (.os ⟨.isADirectory, ".b.tmp", some "b"⟩), crowdedAfter) ∧
      (¬crowded.tree.Stageable letters ∧
          crowded.tree.Recovers crowdedAfter.tree (letters.map (·.1.draftPlace)) ∨
        crowded.tree.Stageable letters ∧ (Apart letters →
          (∃ done f rest, (letters.mergeSort fun a b => a.1.le b.1) = done ++ f :: rest ∧
            (crowded.tree.get? f.1.place = some .dir ∨ ∃ g ∈ letters, f.1.place ∈ g.1.parent.trail) ∧
              crowded.tree.Halved crowdedAfter.tree done (f :: rest)) ∨
          ∃ t, crowded.tree.Wrote t letters ∧
            t.KeepsAt (fun m => ∀ p ∈ ([] : List Path), p.place ≠ m) crowdedAfter.tree)) :=
  ⟨run_letters, failed_group_leaves run_letters⟩

/-- A group that fails can change files: one of two is new, and a draft of the other is left. -/
theorem letters_halved : ∃ e w', (writeGroup letters []).run crowded = (.error (.os e), w') ∧
    crowded.tree.file? ["a"] = some (Text.encode "old") ∧
      w'.tree.file? ["a"] = some (Text.encode "new") ∧ crowded.tree.file? [".b.tmp"] = none ∧
        w'.tree.file? [".b.tmp"] = some (Text.encode "new") :=
  ⟨_, crowdedAfter, run_letters, rfl, rfl, rfl, rfl⟩

end Script
end Acceptance

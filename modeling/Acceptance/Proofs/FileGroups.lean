import Acceptance.Proofs.Directories
/-!
Groups of files that are written together. A group can be written just where the ways to its files
are free and no directory has the place of a file or of its draft. No draft is left behind.
-/
namespace Acceptance

open Script

variable {t t' : Tree} {p q : Path} {w w' : World}

theorem toList_draftName (name : String) :
    (s!".{name}.tmp").toList = '.' :: (name.toList ++ ".tmp".toList) := by
  simp [toString]

theorem draftName_injective {m n : String} (h : s!".{m}.tmp" = s!".{n}.tmp") : m = n := by
  have hlist := congrArg String.toList h
  rw [toList_draftName, toList_draftName, List.cons.injEq, List.append_cancel_right_eq] at hlist
  exact String.toList_inj.1 hlist.2

namespace Path

/-- Where the draft of a file is. -/
def draftPlace (p : Path) : Location := (draftOf p).place

theorem proper_draftOf (p : Path) : (draftOf p).Proper := by
  refine proper_child (fun h => ?_) _
  have hlength := congrArg (fun s => s.toList.length) h
  simp only [toList_draftName] at hlength
  simp at hlength

theorem parent_draftOf (p : Path) : (draftOf p).parent = p.parent := parent_child ..

theorem draftPlace_eq (p : Path) : p.draftPlace = p.parent.place ++ [s!".{p.name}.tmp"] := by
  rw [draftPlace, (proper_draftOf p).place_eq, parent_draftOf]
  exact congrArg (fun n => _ ++ [n]) (name_child ..)

theorem draftPlace_injective (hp : p.Proper) (hq : q.Proper) (h : p.draftPlace = q.draftPlace) :
    p.place = q.place := by
  rw [draftPlace_eq, draftPlace_eq] at h
  obtain ⟨hparent, hname⟩ := List.append_inj' h rfl
  rw [hp.place_eq, hq.place_eq, hparent, draftName_injective (List.singleton_inj.1 hname)]

end Path

namespace Tree

/-- The tree with a draft, and with all directories on the way to it. -/
def staged (t : Tree) (p : Path) (text : String) : Tree :=
  (t.withDirs p.parent.trail).put p.draftPlace (.file (Text.encode text))

end Tree

namespace Script

theorem does_writeText_of_proper (hp : p.Proper) {text : String} :
    (writeText p text).Does w () w' ↔ p.Usable ∧ w.tree.Leads p.parent ∧
      w.tree.get? p.place ≠ some .dir ∧
        w' = { w with tree := w.tree.put p.place (.file (Text.encode text)) } := by
  simp only [does_writeText, Tree.write_eq_ok, Tree.locate_of_proper hp]
  constructor
  · rintro ⟨hflaw, t, ⟨l, ⟨rfl, hleads, hsize, hname⟩, hdir, rfl⟩, rfl⟩
    exact ⟨⟨hflaw, hsize, hname⟩, hleads, hdir, rfl⟩
  · rintro ⟨husable, hleads, hdir, rfl⟩
    exact ⟨husable.flaw, _, ⟨_, ⟨rfl, hleads, husable.size, husable.name⟩, hdir, rfl⟩, rfl⟩

/-- Drafting a file needs a free way. -/
theorem does_stage {text : String} {s : Staged} : (stage p text).Does w s w' ↔ p.parts ≠ [] ∧
    s = ⟨p, draftOf p⟩ ∧ w.tree.Open p.parent ∧ (draftOf p).Usable ∧
      w.tree.get? p.draftPlace ≠ some .dir ∧ p.draftPlace ∉ p.parent.trail ∧
        w' = { w with tree := w.tree.staged p text } := by
  have hpost : ∀ {w₁ : World}, (do
      if p.parts = [] then stop (.nameless p.text)
      writeText (draftOf p) text
      return ⟨p, draftOf p⟩ : Script Staged).Does w₁ s w' ↔
        p.parts ≠ [] ∧ s = ⟨p, draftOf p⟩ ∧ (writeText (draftOf p) text).Does w₁ () w' := by
    intro w₁
    by_cases hparts : p.parts = []
    · simp [hparts, not_does_stop]
    · simp only [hparts, if_false, pure_eq, does_seq, does_done]
      constructor
      · rintro ⟨w₂, hwrite, rfl, rfl⟩
        exact ⟨hparts, rfl, hwrite⟩
      · rintro ⟨-, rfl, hwrite⟩
        exact ⟨w', hwrite, rfl, rfl⟩
  simp only [stage, does_seq, does_makeDirs]
  constructor
  · rintro ⟨w₁, ⟨hopen, rfl⟩, h⟩
    obtain ⟨hparts, rfl, hwrite⟩ := hpost.1 h
    obtain ⟨husable, -, hdir, rfl⟩ := (does_writeText_of_proper p.proper_draftOf).1 hwrite
    rw [Ne, Tree.get?_withDirs_eq_dir hopen.free, not_or] at hdir
    exact ⟨hparts, rfl, hopen, husable, hdir.1, hdir.2, rfl⟩
  · rintro ⟨hparts, rfl, hopen, husable, hdir, hway, rfl⟩
    refine ⟨_, ⟨hopen, rfl⟩, hpost.2 ⟨hparts, rfl, (does_writeText_of_proper p.proper_draftOf).2
      ⟨husable, ?_, ?_, rfl⟩⟩⟩
    · rw [Path.parent_draftOf]
      exact hopen.leads
    · rw [Ne, Tree.get?_withDirs_eq_dir hopen.free, not_or]
      exact ⟨hdir, hway⟩

/-- Drafting all files is drafting one after the other: what is taken back ends in a fault. -/
theorem does_stageAll {files : List (Path × String)} {staged r : List Staged} :
    (stageAll staged files).Does w r w' ↔
      ∃ ss, (files.mapM fun f => stage f.1 f.2).Does w ss w' ∧ r = staged ++ ss := by
  induction files generalizing staged w with
  | nil => simp [stageAll, does_done, eq_comm, and_comm]
  | cons f files ih =>
    obtain ⟨target, text⟩ := f
    rw [stageAll]
    simp only [does_bind, does_attempt, does_mapM_cons]
    constructor
    · rintro ⟨x, w₁, hx, h⟩
      cases x with
      | ok s =>
        obtain ⟨ss, hss, rfl⟩ := ih.1 h
        exact ⟨s :: ss, ⟨s, ss, w₁, hx, hss, rfl⟩, by simp⟩
      | error fault =>
        cases fault with
        | os e =>
          obtain ⟨w₂, -, hstop⟩ := does_seq.1 h
          exact absurd hstop not_does_stop
        | _ => exact absurd h not_does_stop
    · rintro ⟨_, ⟨s, ss, w₁, hs, hss, rfl⟩, rfl⟩
      exact ⟨.ok s, w₁, hs, ih.2 ⟨ss, hss, by simp⟩⟩

end Script

/-! Drafts of several files. -/

namespace Tree

variable {files : List (Path × String)} {m : Location}

structure Stageable (t : Tree) (files : List (Path × String)) : Prop where
  parts : ∀ f ∈ files, f.1.parts ≠ []
  way : ∀ f ∈ files, t.Open f.1.parent
  usable : ∀ f ∈ files, (draftOf f.1).Usable
  notDir : ∀ f ∈ files, t.get? f.1.draftPlace ≠ some .dir
  offWay : ∀ f ∈ files, ∀ g ∈ files, f.1.draftPlace ∉ g.1.parent.trail

/-- All drafts are there and the ways to them; all else is as it was. -/
structure Drafted (t t' : Tree) (files : List (Path × String)) : Prop where
  sound : t.Sound → t'.Sound
  draft : ∀ f ∈ files, t'.file? f.1.draftPlace = some (Text.encode f.2)
  way : ∀ f ∈ files, ∀ l ∈ f.1.parent.trail, t'.get? l = some .dir
  kept : ∀ m, (∀ f ∈ files, m ≠ f.1.draftPlace ∧ m ∉ f.1.parent.trail) → t'.get? m = t.get? m

theorem draftPlace_ne_nil (p : Path) : p.draftPlace ≠ [] := by
  rw [Path.draftPlace_eq]
  simp

theorem get?_staged_self (t : Tree) (p : Path) (text : String) :
    (t.staged p text).get? p.draftPlace = some (.file (Text.encode text)) :=
  get?_put_self (draftPlace_ne_nil p) _ _

theorem get?_staged_of_ne (h : m ≠ p.draftPlace) (text : String) :
    (t.staged p text).get? m = (t.withDirs p.parent.trail).get? m := get?_put_of_ne h _ _

theorem file?_staged_of_ne (h : m ≠ p.draftPlace) (text : String) :
    (t.staged p text).file? m = t.file? m := by
  rw [file?_congr (get?_staged_of_ne h text), file?_withDirs]

theorem Sound.staged (hs : t.Sound) (hopen : t.Open p.parent) (hdir : t.get? p.draftPlace ≠ some .dir)
    (hway : p.draftPlace ∉ p.parent.trail) (text : String) : (t.staged p text).Sound := by
  refine (hopen.sound hs).put (draftPlace_ne_nil p) (Path.up_not_mem_place _) ?_ ?_ _
  · rw [Path.draftPlace_eq, List.dropLast_concat]
    exact hopen.leads.dir
  · rw [Ne, get?_withDirs_eq_dir hopen.free, not_or]
    exact ⟨hdir, hway⟩

theorem stageable_cons {f : Path × String} : t.Stageable (f :: files) ↔
    (f.1.parts ≠ [] ∧ t.Open f.1.parent ∧ (draftOf f.1).Usable ∧
      t.get? f.1.draftPlace ≠ some .dir ∧ f.1.draftPlace ∉ f.1.parent.trail) ∧
        (t.staged f.1 f.2).Stageable files := by
  constructor
  · intro h
    have hf := List.mem_cons_self (a := f) (l := files)
    have hopen := h.way f hf
    refine ⟨⟨h.parts f hf, hopen, h.usable f hf, h.notDir f hf, h.offWay f hf f hf⟩, ?_⟩
    refine ⟨fun g hg => h.parts g (.tail _ hg), fun g hg => ?_, fun g hg => h.usable g (.tail _ hg),
      fun g hg => ?_, fun g hg k hk => h.offWay g (.tail _ hg) k (.tail _ hk)⟩
    · have hway := h.way g (.tail _ hg)
      refine ⟨hway.flaw, hway.size, hway.fits, fun l hl => ?_⟩
      have hne : l ≠ f.1.draftPlace := fun he => h.offWay f hf g (.tail _ hg) (he ▸ hl)
      rw [file?_staged_of_ne hne]
      exact hway.free l hl
    · by_cases hsame : g.1.draftPlace = f.1.draftPlace
      · simp [hsame, get?_staged_self]
      · rw [get?_staged_of_ne hsame, Ne, get?_withDirs_eq_dir hopen.free, not_or]
        exact ⟨h.notDir g (.tail _ hg), h.offWay g (.tail _ hg) f hf⟩
  · rintro ⟨⟨hparts, hopen, husable, hdir, hown⟩, h⟩
    -- a way that is free after the draft is written does not pass the draft
    have hfree : ∀ g ∈ files, ∀ l ∈ g.1.parent.trail, l ≠ f.1.draftPlace := by
      rintro g hg l hl rfl
      have hfile := (h.way g hg).free _ hl
      rw [file?_eq_some.2 (get?_staged_self t f.1 f.2)] at hfile
      cases hfile
    have hnotDir : ∀ g ∈ files, t.get? g.1.draftPlace ≠ some .dir ∧
        g.1.draftPlace ∉ f.1.parent.trail := by
      intro g hg
      by_cases hsame : g.1.draftPlace = f.1.draftPlace
      · rw [hsame]
        exact ⟨hdir, hown⟩
      · have hg' := h.notDir g hg
        rw [get?_staged_of_ne hsame, Ne, get?_withDirs_eq_dir hopen.free, not_or] at hg'
        exact hg'
    refine ⟨List.forall_mem_cons.2 ⟨hparts, h.parts⟩, List.forall_mem_cons.2 ⟨hopen, fun g hg => ?_⟩,
      List.forall_mem_cons.2 ⟨husable, h.usable⟩,
      List.forall_mem_cons.2 ⟨hdir, fun g hg => (hnotDir g hg).1⟩,
      List.forall_mem_cons.2 ⟨?_, fun g hg => ?_⟩⟩
    · have hway := h.way g hg
      refine ⟨hway.flaw, hway.size, hway.fits, fun l hl => ?_⟩
      rw [← file?_staged_of_ne (hfree g hg l hl) f.2]
      exact hway.free l hl
    · exact List.forall_mem_cons.2 ⟨hown, fun g hg hl => hfree g hg _ hl rfl⟩
    · exact List.forall_mem_cons.2 ⟨(hnotDir g hg).2, h.offWay g hg⟩

/-- The tree with all drafts. -/
def stagedAll (t : Tree) (files : List (Path × String)) : Tree :=
  files.foldl (fun t f => t.staged f.1 f.2) t

theorem Stageable.drafted (h : t.Stageable files)
    (hapart : files.Pairwise fun f g => f.1.draftPlace ≠ g.1.draftPlace) :
    t.Drafted (t.stagedAll files) files := by
  induction files generalizing t with
  | nil => exact ⟨id, by simp, by simp, fun _ _ => rfl⟩
  | cons f files ih =>
    obtain ⟨hne, hapart⟩ := List.pairwise_cons.1 hapart
    obtain ⟨⟨-, hopen, -, hdir, hown⟩, hrest⟩ := stageable_cons.1 h
    have hd := ih hrest hapart
    have hf := List.mem_cons_self (a := f) (l := files)
    refine ⟨fun hs => hd.sound (hs.staged hopen hdir hown f.2),
      List.forall_mem_cons.2 ⟨?_, hd.draft⟩, List.forall_mem_cons.2 ⟨fun l hl => ?_, hd.way⟩,
      fun m hm => ?_⟩
    · have hkept := hd.kept f.1.draftPlace fun g hg => ⟨hne g hg, h.offWay f hf g (.tail _ hg)⟩
      rw [stagedAll, List.foldl_cons, file?_eq_some]
      exact hkept.trans (get?_staged_self t f.1 f.2)
    · have hl' : (t.staged f.1 f.2).get? l = some .dir := by
        rw [get?_staged_of_ne fun he => hown (he ▸ hl)]
        exact get?_withDirs_of_mem hl (hopen.free l hl)
      by_cases hother : ∃ g ∈ files, l ∈ g.1.parent.trail
      · obtain ⟨g, hg, hlg⟩ := hother
        exact hd.way g hg l hlg
      · have hkept := hd.kept l fun g hg =>
          ⟨fun he => h.offWay g (.tail _ hg) f hf (he ▸ hl), fun hlg => hother ⟨g, hg, hlg⟩⟩
        exact hkept.trans hl'
    · obtain ⟨⟨hmf, hmway⟩, hm⟩ := List.forall_mem_cons.1 hm
      have hkept := hd.kept m hm
      rw [get?_staged_of_ne hmf, get?_withDirs, if_neg fun hc => hmway hc.2] at hkept
      exact hkept

end Tree

namespace Script

theorem does_stages {files : List (Path × String)} {ss : List Staged} :
    (files.mapM fun f => stage f.1 f.2).Does w ss w' ↔ w.tree.Stageable files ∧
      ss = files.map (fun f => ⟨f.1, draftOf f.1⟩) ∧
        w' = { w with tree := w.tree.stagedAll files } := by
  induction files generalizing w ss with
  | nil =>
    have hnil : w.tree.Stageable [] := ⟨by simp, by simp, by simp, by simp, by simp⟩
    rw [does_mapM_nil, and_iff_right hnil, List.map_nil, eq_comm (a := w)]
    rfl
  | cons f files ih =>
    simp only [does_mapM_cons, does_stage, Tree.stageable_cons]
    constructor
    · rintro ⟨s, rest, w₁, ⟨hparts, rfl, hopen, husable, hdir, hown, rfl⟩, hrest, rfl⟩
      obtain ⟨hstageable, rfl, rfl⟩ := ih.1 hrest
      exact ⟨⟨⟨hparts, hopen, husable, hdir, hown⟩, hstageable⟩, rfl, rfl⟩
    · rintro ⟨⟨⟨hparts, hopen, husable, hdir, hown⟩, hstageable⟩, rfl, rfl⟩
      exact ⟨_, _, _, ⟨hparts, rfl, hopen, husable, hdir, hown, rfl⟩,
        ih.2 ⟨hstageable, rfl, rfl⟩, rfl⟩

end Script

/-! Drafts that take the places of their files. -/

/-- Each file has a place of its own, which is not the place of a draft. -/
structure Apart (files : List (Path × String)) : Prop where
  proper : ∀ f ∈ files, f.1.Proper
  places : files.Pairwise fun f g => f.1.place ≠ g.1.place
  drafts : ∀ f ∈ files, ∀ g ∈ files, f.1.draftPlace ≠ g.1.place

namespace Apart

variable {files files' : List (Path × String)} {f : Path × String}

theorem tail (h : Apart (f :: files)) : Apart files :=
  ⟨fun g hg => h.proper g (.tail _ hg), (List.pairwise_cons.1 h.places).2,
    fun g hg k hk => h.drafts g (.tail _ hg) k (.tail _ hk)⟩

theorem perm (h : Apart files) (hp : files.Perm files') : Apart files' :=
  ⟨fun f hf => h.proper f (hp.mem_iff.2 hf), (hp.pairwise_iff fun h => Ne.symm h).1 h.places,
    fun f hf g hg => h.drafts f (hp.mem_iff.2 hf) g (hp.mem_iff.2 hg)⟩

theorem draftPlaces (h : Apart files) :
    files.Pairwise fun f g => f.1.draftPlace ≠ g.1.draftPlace := by
  refine h.places.imp_of_mem fun hf hg hne heq => hne ?_
  exact Path.draftPlace_injective (h.proper _ hf) (h.proper _ hg) heq

end Apart

namespace Tree

variable {files : List (Path × String)} {f : Path × String} {m : Location}

/-- The tree with a draft moved to the place of its file. -/
def swapped (t : Tree) (f : Path × String) : Tree :=
  (t.erase f.1.draftPlace).put f.1.place (.file (Text.encode f.2))

def swappedAll (t : Tree) (files : List (Path × String)) : Tree := files.foldl swapped t

theorem get?_swapped_place (hf : f.1.Proper) (t : Tree) :
    (t.swapped f).get? f.1.place = some (.file (Text.encode f.2)) := by
  refine get?_put_self ?_ _ _
  rw [hf.place_eq]
  simp

theorem get?_swapped_draftPlace (hne : f.1.draftPlace ≠ f.1.place) (t : Tree) :
    (t.swapped f).get? f.1.draftPlace = none := by
  rw [swapped, get?_put_of_ne hne, get?_erase_self (draftPlace_ne_nil f.1)]

theorem get?_swapped_of_ne (hplace : m ≠ f.1.place) (hdraft : m ≠ f.1.draftPlace) (t : Tree) :
    (t.swapped f).get? m = t.get? m := by
  rw [swapped, get?_put_of_ne hplace, get?_erase_of_ne hdraft]

/-- A file with its draft beside it. -/
structure Ready (t : Tree) (f : Path × String) : Prop where
  draft : t.file? f.1.draftPlace = some (Text.encode f.2)
  leads : t.Leads f.1.parent
  usable : (draftOf f.1).Usable

theorem Ready.notDir (h : t.Ready f) : t.get? f.1.draftPlace ≠ some .dir := by
  rw [file?_eq_some.1 h.draft]
  simp

theorem dir_of_swapped (h : t.Ready f) (hdir : t.get? f.1.place ≠ some .dir)
    (hm : t.get? m = some .dir) : (t.swapped f).get? m = some .dir := by
  rw [get?_swapped_of_ne _ _ t, hm]
  · rintro rfl
    exact hdir hm
  · rintro rfl
    exact h.notDir hm

theorem Sound.swapped (hs : t.Sound) (hf : f.1.Proper) (h : t.Ready f)
    (hdir : t.get? f.1.place ≠ some .dir) (hne : f.1.draftPlace ≠ f.1.place) :
    (t.swapped f).Sound := by
  have hdraft : ∀ l, t.get? l = some .dir → (t.erase f.1.draftPlace).get? l = some .dir := by
    intro l hl
    rw [get?_erase_of_ne _ t, hl]
    rintro rfl
    exact h.notDir hl
  refine (hs.erase h.notDir).put ?_ (Path.up_not_mem_place _) ?_ ?_ _
  · rw [hf.place_eq]
    simp
  · rw [hf.place_eq, List.dropLast_concat]
    exact hdraft _ h.leads.dir
  · rwa [get?_erase_of_ne hne.symm]

/-- All files are there and no draft; all else is as it was. -/
structure Swapped (t t' : Tree) (files : List (Path × String)) : Prop where
  sound : t.Sound → t'.Sound
  target : ∀ f ∈ files, t'.file? f.1.place = some (Text.encode f.2)
  gone : ∀ f ∈ files, t'.get? f.1.draftPlace = none
  kept : ∀ m, (∀ f ∈ files, m ≠ f.1.place ∧ m ≠ f.1.draftPlace) → t'.get? m = t.get? m

/-- A swap leaves the other files as ready as they were. -/
theorem Ready.swapped {g : Path × String} (h : t.Ready f) (hdir : t.get? f.1.place ≠ some .dir)
    (hg : t.Ready g) (hplace : g.1.draftPlace ≠ f.1.place)
    (hdraft : g.1.draftPlace ≠ f.1.draftPlace) : (t.swapped f).Ready g := by
  refine ⟨?_, hg.leads.mono fun l _ => dir_of_swapped h hdir, hg.usable⟩
  rw [file?_congr (get?_swapped_of_ne hplace hdraft t)]
  exact hg.draft

/-- After the first swap the other files are still ready. -/
theorem ready_swapped (ha : Apart (f :: files)) (hready : ∀ g ∈ f :: files, t.Ready g)
    (hdir : t.get? f.1.place ≠ some .dir) : ∀ g ∈ files, (t.swapped f).Ready g := by
  intro g hg
  obtain ⟨hdrafts, -⟩ := List.pairwise_cons.1 ha.draftPlaces
  exact (hready f (.head _)).swapped hdir (hready g (.tail _ hg))
    (ha.drafts g (.tail _ hg) f (.head _)) (hdrafts g hg).symm

/-- After the first swap the places of the other files are as they were. -/
theorem get?_place_swapped (ha : Apart (f :: files)) (t : Tree) :
    ∀ g ∈ files, (t.swapped f).get? g.1.place = t.get? g.1.place := by
  intro g hg
  obtain ⟨hplaces, -⟩ := List.pairwise_cons.1 ha.places
  exact get?_swapped_of_ne (hplaces g hg).symm (ha.drafts f (.head _) g (.tail _ hg)).symm t

theorem swapped_swappedAll (ha : Apart files) (hready : ∀ f ∈ files, t.Ready f)
    (hdir : ∀ f ∈ files, t.get? f.1.place ≠ some .dir) : t.Swapped (t.swappedAll files) files := by
  induction files generalizing t with
  | nil => exact ⟨id, by simp, by simp, fun _ _ => rfl⟩
  | cons f files ih =>
    obtain ⟨hplaces, -⟩ := List.pairwise_cons.1 ha.places
    obtain ⟨hdrafts, -⟩ := List.pairwise_cons.1 ha.draftPlaces
    have hf := List.mem_cons_self (a := f) (l := files)
    have hfready := hready f hf
    have hfdir := hdir f hf
    have hown := ha.drafts f hf f hf
    have hs := ih (t := t.swapped f) ha.tail (ready_swapped ha hready hfdir) fun g hg => by
      rw [get?_place_swapped ha t g hg]
      exact hdir g (.tail _ hg)
    refine ⟨fun h => hs.sound (h.swapped (ha.proper f hf) hfready hfdir hown),
      List.forall_mem_cons.2 ⟨?_, hs.target⟩, List.forall_mem_cons.2 ⟨?_, hs.gone⟩, fun m hm => ?_⟩
    · have hkept := hs.kept f.1.place fun g hg =>
        ⟨hplaces g hg, (ha.drafts g (.tail _ hg) f hf).symm⟩
      rw [file?_eq_some]
      exact hkept.trans (get?_swapped_place (ha.proper f hf) t)
    · have hkept := hs.kept f.1.draftPlace fun g hg => ⟨ha.drafts f hf g (.tail _ hg), hdrafts g hg⟩
      exact hkept.trans (get?_swapped_draftPlace hown t)
    · obtain ⟨⟨hmplace, hmdraft⟩, hm⟩ := List.forall_mem_cons.1 hm
      exact (hs.kept m hm).trans (get?_swapped_of_ne hmplace hmdraft t)

end Tree

namespace Script

variable {files : List (Path × String)} {f : Path × String}

theorem does_swap (hf : f.1.Proper) (h : w.tree.Ready f) (hne : f.1.draftPlace ≠ f.1.place) :
    (swapIn ⟨f.1, draftOf f.1⟩).Does w () w' ↔ f.1.Usable ∧ w.tree.get? f.1.place ≠ some .dir ∧
      w' = { w with tree := w.tree.swapped f } := by
  simp only [does_swapIn, Tree.move_eq_ok hne, Tree.locate_of_proper hf,
    Tree.locate_of_proper f.1.proper_draftOf]
  constructor
  · rintro ⟨-, hflaw, t, ⟨l, m, bytes, ⟨rfl, -⟩, hfile, ⟨rfl, -, hsize, hname⟩, hdir, rfl⟩, rfl⟩
    have hbytes := h.draft.symm.trans hfile
    rw [← Option.some.inj hbytes]
    exact ⟨⟨hflaw, hsize, hname⟩, hdir, rfl⟩
  · rintro ⟨husable, hdir, rfl⟩
    refine ⟨h.usable.flaw, husable.flaw, _, ⟨_, _, _, ⟨rfl, ?_, h.usable.size, h.usable.name⟩,
      h.draft, ⟨rfl, h.leads, husable.size, husable.name⟩, hdir, rfl⟩, rfl⟩
    rw [Path.parent_draftOf]
    exact h.leads

theorem does_swaps (ha : Apart files) (hready : ∀ f ∈ files, w.tree.Ready f) :
    ((files.map fun f => (⟨f.1, draftOf f.1⟩ : Staged)).forM swapIn).Does w () w' ↔
      (∀ f ∈ files, f.1.Usable ∧ w.tree.get? f.1.place ≠ some .dir) ∧
        w' = { w with tree := w.tree.swappedAll files } := by
  induction files generalizing w with
  | nil =>
    rw [List.map_nil, does_forM_nil, eq_comm]
    simp [Tree.swappedAll]
  | cons f files ih =>
    have hf := List.mem_cons_self (a := f) (l := files)
    have hsame := Tree.get?_place_swapped ha w.tree
    have hswap (w₁ : World) : (swapIn ⟨f.1, draftOf f.1⟩).Does w () w₁ ↔ _ :=
      does_swap (ha.proper f hf) (hready f hf) (ha.drafts f hf f hf)
    rw [List.map_cons, does_forM_cons, List.forall_mem_cons]
    constructor
    · rintro ⟨w₁, hfirst, h⟩
      obtain ⟨husable, hdir, rfl⟩ := (hswap w₁).1 hfirst
      obtain ⟨hall, rfl⟩ := (ih ha.tail (Tree.ready_swapped ha hready hdir)).1 h
      exact ⟨⟨⟨husable, hdir⟩, fun g hg => by rw [← hsame g hg]; exact hall g hg⟩, rfl⟩
    · rintro ⟨⟨⟨husable, hdir⟩, hall⟩, rfl⟩
      refine ⟨_, (hswap _).2 ⟨husable, hdir, rfl⟩,
        (ih ha.tail (Tree.ready_swapped ha hready hdir)).2 ⟨fun g hg => ?_, rfl⟩⟩
      rw [hsame g hg]
      exact hall g hg

end Script

/-! The whole group. -/

namespace Tree

variable {files : List (Path × String)} {m : Location}

/-- What a group needs: free ways, and no directory at the place of a file or of a draft, neither
before nor after the ways are made. -/
structure Writable (t : Tree) (files : List (Path × String)) : Prop where
  way : ∀ f ∈ files, t.Open f.1.parent
  usable : ∀ f ∈ files, f.1.Usable ∧ (draftOf f.1).Usable
  clear : ∀ f ∈ files, ∀ m ∈ [f.1.place, f.1.draftPlace],
    t.get? m ≠ some .dir ∧ ∀ g ∈ files, m ∉ g.1.parent.trail

/-- What a group leaves: the files, the ways to them and no drafts. -/
structure Wrote (t t' : Tree) (files : List (Path × String)) : Prop where
  sound : t.Sound → t'.Sound
  target : ∀ f ∈ files, t'.file? f.1.place = some (Text.encode f.2)
  gone : ∀ f ∈ files, t'.get? f.1.draftPlace = none
  way : ∀ f ∈ files, ∀ l ∈ f.1.parent.trail, t'.get? l = some .dir
  kept : ∀ m, (∀ f ∈ files, m ≠ f.1.place ∧ m ≠ f.1.draftPlace ∧ m ∉ f.1.parent.trail) →
    t'.get? m = t.get? m

theorem Writable.stageable (h : t.Writable files) (ha : Apart files) : t.Stageable files :=
  ⟨fun f hf => (ha.proper f hf).parts, h.way, fun f hf => (h.usable f hf).2,
    fun f hf => (h.clear f hf _ (by simp)).1, fun f hf => (h.clear f hf _ (by simp)).2⟩

theorem Stageable.ready (h : t.Stageable files) (ha : Apart files) :
    ∀ f ∈ files, (t.stagedAll files).Ready f := by
  have hd := h.drafted ha.draftPlaces
  exact fun f hf => ⟨hd.draft f hf, ⟨(h.way f hf).fits, hd.way f hf⟩, h.usable f hf⟩

/-- The place of a file holds no directory when it is swapped in: neither an old one nor one that
was made on the way to another file. -/
theorem Stageable.place_iff (h : t.Stageable files) (ha : Apart files) {f : Path × String}
    (hf : f ∈ files) : (t.stagedAll files).get? f.1.place ≠ some .dir ↔
      t.get? f.1.place ≠ some .dir ∧ ∀ g ∈ files, f.1.place ∉ g.1.parent.trail := by
  have hd := h.drafted ha.draftPlaces
  have hkept : (∀ g ∈ files, f.1.place ∉ g.1.parent.trail) →
      (t.stagedAll files).get? f.1.place = t.get? f.1.place :=
    fun hoff => hd.kept _ fun g hg => ⟨(ha.drafts g hg f hf).symm, hoff g hg⟩
  constructor
  · intro hdir
    have hoff : ∀ g ∈ files, f.1.place ∉ g.1.parent.trail :=
      fun g hg hl => hdir (hd.way g hg _ hl)
    rw [hkept hoff] at hdir
    exact ⟨hdir, hoff⟩
  · rintro ⟨hdir, hoff⟩
    rwa [hkept hoff]

theorem writable_iff (ha : Apart files) : t.Writable files ↔ t.Stageable files ∧
    ∀ f ∈ files, f.1.Usable ∧ (t.stagedAll files).get? f.1.place ≠ some .dir := by
  constructor
  · intro h
    have hstage := h.stageable ha
    exact ⟨hstage, fun f hf =>
      ⟨(h.usable f hf).1, (hstage.place_iff ha hf).2 (h.clear f hf _ (by simp))⟩⟩
  · rintro ⟨h, hall⟩
    refine ⟨h.way, fun f hf => ⟨(hall f hf).1, h.usable f hf⟩, fun f hf m hm => ?_⟩
    rcases List.mem_pair.1 hm with rfl | rfl
    · exact (h.place_iff ha hf).1 (hall f hf).2
    · exact ⟨h.notDir f hf, h.offWay f hf⟩

theorem Writable.wrote (h : t.Writable files) (ha : Apart files) :
    t.Wrote ((t.stagedAll files).swappedAll files) files := by
  obtain ⟨hstage, hplaces⟩ := (writable_iff ha).1 h
  have hd := hstage.drafted ha.draftPlaces
  have hs := swapped_swappedAll ha (hstage.ready ha) fun f hf => (hplaces f hf).2
  refine ⟨fun hsound => hs.sound (hd.sound hsound), hs.target, hs.gone, fun f hf l hl => ?_,
    fun m hm => ?_⟩
  · rw [hs.kept l, hd.way f hf l hl]
    intro g hg
    refine ⟨?_, ?_⟩
    · rintro rfl
      exact (h.clear g hg _ (by simp)).2 f hf hl
    · rintro rfl
      exact (h.clear g hg _ (by simp)).2 f hf hl
  · rw [hs.kept m fun f hf => ⟨(hm f hf).1, (hm f hf).2.1⟩,
      hd.kept m fun f hf => (hm f hf).2]

theorem Writable.perm {files' : List (Path × String)} (hp : files.Perm files')
    (h : t.Writable files) : t.Writable files' :=
  ⟨fun f hf => h.way f (hp.mem_iff.2 hf), fun f hf => h.usable f (hp.mem_iff.2 hf),
    fun f hf m hm => ⟨(h.clear f (hp.mem_iff.2 hf) m hm).1,
      fun g hg => (h.clear f (hp.mem_iff.2 hf) m hm).2 g (hp.mem_iff.2 hg)⟩⟩

theorem Wrote.perm {files' : List (Path × String)} (hp : files.Perm files')
    (h : t.Wrote t' files) : t.Wrote t' files' :=
  ⟨h.sound, fun f hf => h.target f (hp.mem_iff.2 hf), fun f hf => h.gone f (hp.mem_iff.2 hf),
    fun f hf => h.way f (hp.mem_iff.2 hf), fun m hm => h.kept m fun f hf => hm f (hp.mem_iff.1 hf)⟩

end Tree

namespace Script

variable {files : List (Path × String)}

/-- The part of writing a group that comes before removals. -/
def putGroup (files : List (Path × String)) : Script Unit := do
  let staged ← stageAll [] (files.mergeSort fun a b => a.1.le b.1)
  staged.forM swapIn

theorem writeGroup_eq (files : List (Path × String)) (stale : List Path) :
    writeGroup files stale = putGroup files >>= fun _ =>
      (stale.filter fun p => !files.any (·.1 = p)).forM removeIfThere :=
  (bind_bind ..).symm

theorem does_writeGroup {stale : List Path} : (writeGroup files stale).Does w () w' ↔
    ∃ w₁, (putGroup files).Does w () w₁ ∧
      ((stale.filter fun p => !files.any (·.1 = p)).forM removeIfThere).Does w₁ () w' := by
  rw [writeGroup_eq, does_seq]

theorem does_putGroup_sorted (ha : Apart files) {sorted : List (Path × String)}
    (hsorted : (files.mergeSort fun a b => a.1.le b.1) = sorted) :
    (putGroup files).Does w () w' ↔ w.tree.Writable sorted ∧
      w' = { w with tree := (w.tree.stagedAll sorted).swappedAll sorted } := by
  have ha : Apart sorted := ha.perm (hsorted ▸ (List.mergeSort_perm ..).symm)
  rw [putGroup, hsorted, Tree.writable_iff ha]
  simp only [does_bind, does_stageAll, List.nil_append]
  constructor
  · rintro ⟨_, w₁, ⟨ss, hss, rfl⟩, hswaps⟩
    obtain ⟨hstage, rfl, rfl⟩ := does_stages.1 hss
    obtain ⟨hall, rfl⟩ := (does_swaps ha (hstage.ready ha)).1 hswaps
    exact ⟨⟨hstage, hall⟩, rfl⟩
  · rintro ⟨⟨hstage, hall⟩, rfl⟩
    exact ⟨_, _, ⟨_, does_stages.2 ⟨hstage, rfl, rfl⟩, rfl⟩,
      (does_swaps ha (hstage.ready ha)).2 ⟨hall, rfl⟩⟩

theorem Does.writable (h : (putGroup files).Does w () w') (ha : Apart files) :
    w.tree.Writable files :=
  ((does_putGroup_sorted ha rfl).1 h).1.perm (List.mergeSort_perm ..)

theorem Does.wrote (h : (putGroup files).Does w () w') (ha : Apart files) :
    w.tree.Wrote w'.tree files := by
  have hp := List.mergeSort_perm files fun a b => a.1.le b.1
  obtain ⟨hwritable, rfl⟩ := (does_putGroup_sorted ha rfl).1 h
  exact (hwritable.wrote (ha.perm hp.symm)).perm hp

theorem does_putGroup (h : w.tree.Writable files) (ha : Apart files) :
    ∃ w', (putGroup files).Does w () w' :=
  ⟨_, (does_putGroup_sorted ha rfl).2 ⟨h.perm (List.mergeSort_perm ..).symm, rfl⟩⟩

end Script

end Acceptance

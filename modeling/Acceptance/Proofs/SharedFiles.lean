import Acceptance.Proofs.FileChanges
import Acceptance.Proofs.Interleaving
/-!
Work on files amid other work that keeps them. Whatever the others do meanwhile, the files of a group
are set as they would be without the others.
-/
namespace Acceptance

open Script

variable {P : Location → Prop}

namespace Tree

variable {t t' u : Tree} {l m : Location} {p : Path} {as bs cs : List (Location × Option ByteArray)}

/-- Of the files at some places the given ones are set and the others are kept. No directory is
gone. -/
structure SetsAt (P : Location → Prop) (t t' : Tree) (cs : List (Location × Option ByteArray)) :
    Prop where
  dirs : ∀ m, t.get? m = some .dir → t'.get? m = some .dir
  set : ∀ c ∈ cs, P c.1 → t'.file? c.1 = c.2
  kept : ∀ m, P m → (∀ c ∈ cs, c.1 ≠ m) → t'.file? m = t.file? m

theorem KeepsAt.setsAt (h : t.KeepsAt P t') : t.SetsAt P t' [] :=
  ⟨h.dirs, by simp, fun m hm _ => h.files m hm⟩

namespace SetsAt

theorem before (h : t'.SetsAt P u cs) (hk : t.KeepsAt P t') : t.SetsAt P u cs :=
  ⟨fun m hm => h.dirs m (hk.dirs m hm), h.set,
    fun m hm hc => (h.kept m hm hc).trans (hk.files m hm)⟩

theorem after (h : t.SetsAt P t' cs) (hk : t'.KeepsAt P u) : t.SetsAt P u cs :=
  ⟨fun m hm => hk.dirs m (h.dirs m hm), fun c hc hP => (hk.files _ hP).trans (h.set c hc hP),
    fun m hm hc => (hk.files m hm).trans (h.kept m hm hc)⟩

theorem congr (h : t.SetsAt P t' as) (heq : ∀ c, c ∈ as ↔ c ∈ bs) : t.SetsAt P t' bs :=
  ⟨h.dirs, fun c hc => h.set c ((heq c).2 hc), fun m hm hc => h.kept m hm fun c hmem =>
    hc c ((heq c).1 hmem)⟩

/-- Changes one after the other, if they do not contradict each other. -/
theorem append (h₁ : t.SetsAt P t' as) (h₂ : t'.SetsAt P u bs)
    (hagree : ∀ a ∈ as, ∀ b ∈ bs, a.1 = b.1 → a.2 = b.2) : t.SetsAt P u (as ++ bs) := by
  refine ⟨fun m hm => h₂.dirs m (h₁.dirs m hm), List.forall_mem_append.2 ⟨fun a ha hP => ?_, h₂.set⟩,
    fun m hm hc => ?_⟩
  · by_cases hb : ∃ b ∈ bs, b.1 = a.1
    · obtain ⟨b, hb, hplace⟩ := hb
      rw [← hplace, h₂.set b hb (hplace ▸ hP), hagree a ha b hb hplace.symm]
    · rw [h₂.kept _ hP fun b hb' hplace => hb ⟨b, hb', hplace⟩, h₁.set a ha hP]
  · obtain ⟨hma, hmb⟩ := List.forall_mem_append.1 hc
    rw [h₂.kept m hm hmb, h₁.kept m hm hma]

/-- Later changes replace earlier ones at the same places. -/
theorem replaced (h₁ : t.SetsAt P t' as) (h₂ : t'.SetsAt P u bs) (hover : ∀ a ∈ as, ∃ b ∈ bs, b.1 = a.1) :
    t.SetsAt P u bs := by
  refine ⟨fun m hm => h₂.dirs m (h₁.dirs m hm), h₂.set, fun m hm hc => ?_⟩
  rw [h₂.kept m hm hc, h₁.kept m hm fun a ha hplace => ?_]
  obtain ⟨b, hb, hbplace⟩ := hover a ha
  exact hc b hb (hbplace.trans hplace)

/-- What is left is settled by what was there. -/
theorem file?_eq (h : t.SetsAt P t' cs) (h' : t.SetsAt P u cs) (hm : P m) :
    t'.file? m = u.file? m := by
  by_cases hc : ∃ c ∈ cs, c.1 = m
  · obtain ⟨c, hc, rfl⟩ := hc
    rw [h.set c hc hm, h'.set c hc hm]
  · have hother : ∀ c ∈ cs, c.1 ≠ m := fun c hmem heq => hc ⟨c, hmem, heq⟩
    rw [h.kept m hm hother, h'.kept m hm hother]

theorem put_file (hl : l ≠ []) (hdir : t.get? l ≠ some .dir) (bytes : ByteArray) :
    t.SetsAt P (t.put l (.file bytes)) [(l, some bytes)] := by
  have hkeeps : t.KeepsAt (· ≠ l) (t.put l (.file bytes)) := .put_file hdir (not_not.2 rfl) bytes
  refine ⟨hkeeps.dirs, List.forall_mem_singleton.2 fun _ => ?_, fun m _ hm => ?_⟩
  · exact file?_eq_some.2 (get?_put_self hl t _)
  · exact hkeeps.files m (List.forall_mem_singleton.1 hm).symm

theorem erase (hl : l ≠ []) (hdir : t.get? l ≠ some .dir) : t.SetsAt P (t.erase l) [(l, none)] := by
  have hkeeps : t.KeepsAt (· ≠ l) (t.erase l) := .erase hdir (not_not.2 rfl)
  refine ⟨hkeeps.dirs, List.forall_mem_singleton.2 fun _ => ?_, fun m _ hm => ?_⟩
  · exact file?_of_none (get?_erase_self hl t)
  · exact hkeeps.files m (List.forall_mem_singleton.1 hm).symm

end SetsAt

/-! Files that can be found. -/

theorem walk_ne_notFound {names : List String} (h : ∀ m ∈ passed l names, t.get? m = some .dir) :
    t.walk l names ≠ .error .notFound := by
  induction names generalizing l with
  | nil => simp [walk]
  | cons name names ih =>
    obtain ⟨hl, hrest⟩ := List.forall_mem_cons.1 h
    have hlater := ih hrest
    rw [walk, hl]
    rw [step] at hlater
    split at hlater
    · next hup => simpa [hup] using hlater
    · next hup =>
      by_cases hlong : name.utf8ByteSize > maxNameSize
      · simp [hup, hlong]
      · simpa [hup, hlong] using hlater

theorem locate_ne_notFound (hp : p.Proper) (h : ∀ l ∈ p.parent.trail, t.get? l = some .dir) :
    t.locate p ≠ .error .notFound := by
  rw [← Path.passed_names hp.parts] at h
  rw [locate]
  split
  · simp
  · exact walk_ne_notFound h

/-- If a file is at the place of a path then there are directories all the way. -/
def Paved (t : Tree) (p : Path) : Prop :=
  t.file? p.place ≠ none → ∀ l ∈ p.parent.trail, t.get? l = some .dir

namespace Paved

theorem setsAt (h : t.Paved p) (hs : t.SetsAt P t' cs) (hp : P p.place)
    (hnone : ∀ c ∈ cs, c.1 = p.place → c.2 = none) : t'.Paved p := by
  intro hfile l hl
  refine hs.dirs l (h (fun hgone => hfile ?_) l hl)
  by_cases hc : ∃ c ∈ cs, c.1 = p.place
  · obtain ⟨c, hc, hplace⟩ := hc
    rw [← hplace, hs.set c hc (hplace ▸ hp), hnone c hc hplace]
  · rw [hs.kept _ hp fun c hmem heq => hc ⟨c, hmem, heq⟩, hgone]

theorem keepsAt (h : t.Paved p) (hk : t.KeepsAt P t') (hp : P p.place) : t'.Paved p :=
  h.setsAt hk.setsAt hp (by simp)

/-- A file that is said to be missing is missing. -/
theorem file?_of_missing (h : t.Paved p) (hp : p.Proper) (hmiss : t.remove p = .error .notFound) :
    t.file? p.place = none := by
  by_contra hfile
  cases hl : t.locate p with
  | ok l =>
    obtain rfl := locate_eq_place hl
    have hok := remove_eq_ok.2 ⟨_, hl, hfile, rfl⟩
    rw [hok] at hmiss
    cases hmiss
  | error cause =>
    rw [remove_of_error hl] at hmiss
    cases hmiss
    exact locate_ne_notFound hp (h hfile) hl

end Paved

end Tree

namespace Script

variable {w w' : World} {p : Path} {text : String}

/-! Directories. -/

theorem single_isDir : (isDir p).Single := by
  intro reply
  cases reply <;> trivial

theorem Amid.acceptDir {reply : Except FileError Unit} (h : (acceptDir p reply).Amid P w () w')
    (hmade : reply = .ok () → ∀ l ∈ p.trail, w.tree.get? l = some .dir) :
    ∀ l ∈ p.trail, w'.tree.get? l = some .dir := by
  cases reply with
  | ok u => exact fun l hl => h.2.dirs l (hmade rfl l hl)
  | error e =>
    cases e with
    | path flaw => exact h.elim
    | os e =>
      -- it was not made here, so somebody looks whether it is there
      obtain ⟨b, w₁, hdir, hend⟩ := of_bind h
      cases b with
      | false => exact hend.elim
      | true =>
        obtain ⟨w₂, w₃, -, hdoes, hkeeps⟩ := hdir.exists_does single_isDir
        obtain ⟨rfl, -, hstat⟩ := does_isDir_true.1 hdoes
        have hleads := (Tree.stat_eq_dir.1 hstat).2
        exact fun l hl => hend.2.dirs l (hkeeps.dirs l (hleads.way l hl))

theorem Amid.makeLast (h : (do Script.acceptDir p (← ask (.makeDir p)) : Script Unit).Amid P w () w') :
    ∀ l ∈ p.trail, w'.tree.get? l = some .dir := by
  obtain ⟨w₁, -, hend⟩ := of_ask h
  refine Amid.acceptDir hend fun hreply => ?_
  obtain ⟨-, -, t, ht, hw⟩ := World.update_eq_ok.1 (Prod.ext hreply rfl)
  obtain ⟨l, hl, hnone, rfl⟩ := Tree.makeDir_eq_ok.1 ht
  obtain ⟨-, rfl, -, hway⟩ := Tree.locate_eq_ok.1 hl
  have hkeeps : w₁.tree.KeepsAt P (w₁.tree.put p.place .dir) := .put_dir hnone
  have hne : p.place ≠ [] := by
    intro hroot
    rw [hroot] at hnone
    cases hnone
  intro l hl
  rw [show ((Op.makeDir p).perform w₁).2 = _ from hw]
  rcases List.mem_append.1 hl with hl | hl
  · exact hkeeps.dirs l (hway l hl)
  · rw [List.mem_singleton.1 hl]
    exact Tree.get?_put_self hne _ _

/-- Once directories are made they are there, whoever made them. -/
theorem Amid.makeDirsUp (slashes : Nat) (parts : List Phrase) (hp : p = ⟨slashes, parts.reverse⟩)
    (h : (makeDirsUp slashes parts).Amid P w () w') : ∀ l ∈ p.trail, w'.tree.get? l = some .dir := by
  cases parts with
  | nil =>
    subst hp
    exact makeLast h
  | cons part above =>
    rw [Script.makeDirsUp, ← hp] at h
    -- whether those above have to be made or not, the last step is to make this one
    obtain ⟨w₁, hw₁, hend⟩ := of_ask h
    split at hend
    · obtain ⟨w₂, -, hlast⟩ := of_seq hend
      exact makeLast hlast
    · exact makeLast ⟨w₁, hw₁, hend⟩

theorem Amid.makeDirs (h : (makeDirs p).Amid P w () w') : ∀ l ∈ p.trail, w'.tree.get? l = some .dir :=
  makeDirsUp p.slashes p.parts.reverse (by rw [List.reverse_reverse]) h

/-! Drafts. -/

theorem single_writeText : (writeText p text).Single := by
  intro reply
  cases reply <;> trivial

theorem Amid.writeText (hp : p.Proper) (h : (writeText p text).Amid P w () w') :
    w.tree.SetsAt P w'.tree [(p.place, some (Text.encode text))] := by
  obtain ⟨w₁, w₂, hbefore, hdoes, hafter⟩ := h.exists_does single_writeText
  obtain ⟨-, -, hdir, rfl⟩ := (does_writeText_of_proper hp).1 hdoes
  have hne : p.place ≠ [] := by
    rw [hp.place_eq]
    simp
  exact ((Tree.SetsAt.put_file hne hdir _).before hbefore).after hafter

theorem Amid.stage {s : Staged} (h : (stage p text).Amid P w s w') : s = ⟨p, draftOf p⟩ ∧
    w.tree.SetsAt P w'.tree [(p.draftPlace, some (Text.encode text))] ∧
      ∀ l ∈ p.parent.trail, w'.tree.get? l = some .dir := by
  obtain ⟨w₁, hdirs, h⟩ := of_seq h
  have hway := Amid.makeDirs hdirs
  have hkeeps := hdirs.keepsAt sparesAt_makeDirs
  dsimp only at h
  split at h
  · exact h.elim
  · obtain ⟨w₂, hwrite, hend⟩ := of_seq h
    have hset := (Amid.writeText p.proper_draftOf hwrite).after hend.2
    exact ⟨hend.1.symm, hset.before hkeeps, fun l hl => hset.dirs l (hway l hl)⟩

variable {files : List (Path × String)}

theorem Amid.stageAll {staged ss : List Staged} (h : (stageAll staged files).Amid P w ss w')
    (hapart : files.Pairwise fun f g => f.1.draftPlace ≠ g.1.draftPlace) :
    ss = staged ++ files.map (fun f => ⟨f.1, draftOf f.1⟩) ∧
      w.tree.SetsAt P w'.tree (files.map fun f => (f.1.draftPlace, some (Text.encode f.2))) ∧
        ∀ f ∈ files, ∀ l ∈ f.1.parent.trail, w'.tree.get? l = some .dir := by
  induction files generalizing staged w with
  | nil =>
    obtain ⟨rfl, hkeeps⟩ := h
    exact ⟨by simp, hkeeps.setsAt, by simp⟩
  | cons f files ih =>
    obtain ⟨target, text⟩ := f
    obtain ⟨hne, hapart⟩ := List.pairwise_cons.1 hapart
    obtain ⟨r, w₁, hr, h⟩ := of_bind h
    rcases of_attempt hr with ⟨s, rfl, hstage⟩ | ⟨fault, rfl⟩
    · obtain ⟨rfl, hset, hway⟩ := Amid.stage hstage
      obtain ⟨rfl, hsets, hways⟩ := ih h hapart
      refine ⟨by simp, hset.append hsets fun a ha b hb heq => ?_, List.forall_mem_cons.2 ⟨?_, hways⟩⟩
      · obtain rfl := List.mem_singleton.1 ha
        obtain ⟨g, hg, rfl⟩ := List.mem_map.1 hb
        exact absurd heq (hne g hg)
      · exact fun l hl => hsets.dirs l (hway l hl)
    · -- drafts are taken back only to end in a fault
      cases fault with
      | os e =>
        obtain ⟨w₂, -, hstop⟩ := of_seq h
        exact hstop.elim
      | _ => exact h.elim

/-! Swaps. -/

theorem single_swapIn (s : Staged) : (swapIn s).Single := by
  intro reply
  cases reply <;> trivial

/-- What swapping in a file sets. -/
def swapChanges (f : Path × String) : List (Location × Option ByteArray) :=
  [(f.1.place, some (Text.encode f.2)), (f.1.draftPlace, none)]

theorem Amid.swapIn {f : Path × String} (h : (swapIn ⟨f.1, draftOf f.1⟩).Amid P w () w')
    (hne : f.1.draftPlace ≠ f.1.place) (hP : P f.1.draftPlace)
    (hdraft : w.tree.file? f.1.draftPlace = some (Text.encode f.2)) :
    w.tree.SetsAt P w'.tree (swapChanges f) := by
  obtain ⟨w₁, w₂, hbefore, hdoes, hafter⟩ := h.exists_does (single_swapIn _)
  obtain ⟨-, -, t, hmove, rfl⟩ := does_swapIn.1 hdoes
  obtain ⟨l, m, bytes, hl, hfile, hm, hdir, rfl⟩ := (Tree.move_eq_ok hne).1 hmove
  obtain rfl := Tree.locate_eq_place hl
  obtain rfl := Tree.locate_eq_place hm
  -- nobody else writes to the draft, so it is still what it was
  obtain rfl : Text.encode f.2 = bytes := by
    rw [← hbefore.files _ hP] at hdraft
    exact Option.some.inj (hdraft.symm.trans hfile)
  have herase : w₁.tree.SetsAt P (w₁.tree.erase f.1.draftPlace) [(f.1.draftPlace, none)] := by
    refine .erase (Tree.draftPlace_ne_nil f.1) fun hdir => ?_
    rw [show w₁.tree.file? (draftOf f.1).place = none from Tree.file?_of_dir hdir] at hfile
    cases hfile
  have hput : (w₁.tree.erase f.1.draftPlace).SetsAt P
      ((w₁.tree.erase f.1.draftPlace).put f.1.place (.file (Text.encode f.2)))
      [(f.1.place, some (Text.encode f.2))] := by
    refine .put_file (fun hroot => hdir ?_) ?_ _
    · rw [hroot]
      rfl
    · rwa [Tree.get?_erase_of_ne hne.symm]
  have hboth := herase.append hput fun a ha b hb heq => by
    obtain rfl := List.mem_singleton.1 ha
    obtain rfl := List.mem_singleton.1 hb
    exact absurd heq hne
  exact ((hboth.congr fun c => by simp [swapChanges, or_comm]).before hbefore).after hafter

theorem Amid.swaps (h : ((files.map fun f => (⟨f.1, draftOf f.1⟩ : Staged)).forM Script.swapIn).Amid
      P w () w') (ha : Apart files) (hP : ∀ f ∈ files, P f.1.draftPlace)
    (hdrafts : ∀ f ∈ files, w.tree.file? f.1.draftPlace = some (Text.encode f.2)) :
    w.tree.SetsAt P w'.tree (files.flatMap swapChanges) := by
  induction files generalizing w with
  | nil => exact Tree.KeepsAt.setsAt h.2
  | cons f files ih =>
    obtain ⟨hplaces, -⟩ := List.pairwise_cons.1 ha.places
    obtain ⟨hapart, -⟩ := List.pairwise_cons.1 ha.draftPlaces
    obtain ⟨hfP, hP⟩ := List.forall_mem_cons.1 hP
    obtain ⟨hdraft, hdrafts⟩ := List.forall_mem_cons.1 hdrafts
    obtain ⟨w₁, hfirst, hrest⟩ := of_seq h
    have hset := Amid.swapIn hfirst (ha.drafts f (.head _) f (.head _)) hfP hdraft
    have hsets := ih hrest ha.tail hP fun g hg => by
      rw [hset.kept _ (hP g hg), hdrafts g hg]
      refine List.forall_mem_cons.2 ⟨?_, List.forall_mem_singleton.2 (hapart g hg)⟩
      exact (ha.drafts g (.tail _ hg) f (.head _)).symm
    rw [List.flatMap_cons]
    -- a later swap changes neither this file nor the place of its draft
    refine hset.append hsets fun a hfa b hb heq => absurd heq ?_
    obtain ⟨g, hg, hgb⟩ := List.mem_flatMap.1 hb
    rcases List.mem_pair.1 hfa with rfl | rfl <;> rcases List.mem_pair.1 hgb with rfl | rfl
    · exact hplaces g hg
    · exact (ha.drafts g (.tail _ hg) f (.head _)).symm
    · exact ha.drafts f (.head _) g (.tail _ hg)
    · exact hapart g hg

/-! Removals. -/

theorem single_removeIfThere : (removeIfThere p).Single := by
  intro reply
  rcases reply with (e | flaw) | u
  · obtain ⟨cause, path, target⟩ := e
    cases cause <;> trivial
  · trivial
  · trivial

theorem Amid.removeIfThere (h : (removeIfThere p).Amid P w () w') (hp : p.Proper) (hP : P p.place)
    (hway : w.tree.Paved p) : w.tree.SetsAt P w'.tree [(p.place, none)] := by
  obtain ⟨w₁, w₂, hbefore, hdoes, hafter⟩ := h.exists_does single_removeIfThere
  have hset : w₁.tree.SetsAt P w₂.tree [(p.place, none)] := by
    obtain ⟨-, ⟨t, hremove, rfl⟩ | ⟨hmiss, rfl⟩⟩ := does_removeIfThere.1 hdoes
    · obtain ⟨l, hl, hfile, rfl⟩ := Tree.remove_eq_ok.1 hremove
      obtain rfl := Tree.locate_eq_place hl
      refine .erase (fun hroot => hfile ?_) fun hdir => hfile (Tree.file?_of_dir hdir)
      rw [hroot]
      rfl
    · have hnone := (hway.keepsAt hbefore hP).file?_of_missing hp hmiss
      exact ⟨fun _ => id, List.forall_mem_singleton.2 fun _ => hnone, fun _ _ _ => rfl⟩
  exact (hset.before hbefore).after hafter

theorem Amid.removals {ps : List Path} (h : (ps.forM Script.removeIfThere).Amid P w () w')
    (hproper : ∀ p ∈ ps, p.Proper) (hP : ∀ p ∈ ps, P p.place) (hways : ∀ p ∈ ps, w.tree.Paved p) :
    w.tree.SetsAt P w'.tree (ps.map fun p => (p.place, none)) := by
  induction ps generalizing w with
  | nil => exact Tree.KeepsAt.setsAt h.2
  | cons p ps ih =>
    obtain ⟨hp, hproper⟩ := List.forall_mem_cons.1 hproper
    obtain ⟨hpP, hP⟩ := List.forall_mem_cons.1 hP
    obtain ⟨hway, hways⟩ := List.forall_mem_cons.1 hways
    obtain ⟨w₁, hfirst, hrest⟩ := of_seq h
    have hset := Amid.removeIfThere hfirst hp hpP hway
    have hsets := ih hrest hproper hP fun q hq => (hways q hq).setsAt hset (hP q hq) (by simp)
    refine hset.append hsets fun a ha b hb _ => ?_
    obtain rfl := List.mem_singleton.1 ha
    obtain ⟨q, -, rfl⟩ := List.mem_map.1 hb
    rfl

/-! Groups. -/

variable {stale : List Path}

/-- What writing a group sets: its files, its drafts and what is stale. -/
def groupSets (files : List (Path × String)) (stale : List Path) :
    List (Location × Option ByteArray) :=
  files.flatMap swapChanges ++
    (stale.filter fun p => !files.any (·.1 = p)).map fun p => (p.place, none)

/-- Only the files of a group are set to bytes. -/
theorem mem_groupSets_some {m : Location} {bytes : ByteArray} :
    (m, some bytes) ∈ groupSets files stale ↔ ∃ f ∈ files, m = f.1.place ∧ bytes = Text.encode f.2 := by
  simp [groupSets, swapChanges]

/-- The places of a group are among those that others leave alone, and what is stale can be found. -/
structure GroupOwned (P : Location → Prop) (t : Tree) (files : List (Path × String))
    (stale : List Path) : Prop where
  apart : Apart files
  drafts : ∀ f ∈ files, P f.1.draftPlace
  proper : ∀ p ∈ stale, p.Proper
  owned : ∀ p ∈ stale, P p.place
  way : ∀ p ∈ stale, t.Paved p
  own : ∀ p ∈ stale, ∀ f ∈ files, p.place = f.1.place → f.1 = p

theorem Amid.putGroup (h : (putGroup files).Amid P w () w') (ha : Apart files)
    (hP : ∀ f ∈ files, P f.1.draftPlace) : w.tree.SetsAt P w'.tree (files.flatMap swapChanges) ∧
      (∀ f ∈ files, ∀ l ∈ f.1.parent.trail, w'.tree.get? l = some .dir) ∧
        ∀ f ∈ files, w.tree.get? f.1.draftPlace ≠ some .dir := by
  have hperm := List.mergeSort_perm files fun a b => a.1.le b.1
  obtain ⟨ss, w₁, hstage, hswaps⟩ := of_bind h
  generalize (files.mergeSort fun a b => a.1.le b.1) = sorted at hperm hstage
  have ha : Apart sorted := ha.perm hperm.symm
  have hP : ∀ f ∈ sorted, P f.1.draftPlace := fun f hf => hP f (hperm.mem_iff.1 hf)
  obtain ⟨rfl, hstaged, hways⟩ := Amid.stageAll hstage ha.draftPlaces
  -- all drafts are there before the first of them is swapped in
  have hdrafts : ∀ f ∈ sorted, w₁.tree.file? f.1.draftPlace = some (Text.encode f.2) :=
    fun f hf => hstaged.set _ (List.mem_map_of_mem hf) (hP f hf)
  have hswapped := Amid.swaps hswaps ha hP hdrafts
  refine ⟨(hstaged.replaced hswapped fun a hmem => ?_).congr fun c => ?_,
    fun f hf l hl => hswapped.dirs l (hways f (hperm.mem_iff.2 hf) l hl), fun f hf hdir => ?_⟩
  · obtain ⟨f, hf, rfl⟩ := List.mem_map.1 hmem
    exact ⟨_, List.mem_flatMap.2 ⟨f, hf, .tail _ (.head _)⟩, rfl⟩
  · simp only [List.mem_flatMap, hperm.mem_iff]
  · have hdraft := hdrafts f (hperm.mem_iff.2 hf)
    rw [Tree.file?_of_dir (hstaged.dirs _ hdir)] at hdraft
    cases hdraft

theorem Amid.writeGroup (h : (writeGroup files stale).Amid P w () w')
    (hown : GroupOwned P w.tree files stale) :
    w.tree.SetsAt P w'.tree (groupSets files stale) ∧
      ∀ f ∈ files, ∀ l ∈ f.1.parent.trail, w'.tree.get? l = some .dir := by
  rw [writeGroup_eq] at h
  obtain ⟨w₁, hput, hremove⟩ := of_seq h
  obtain ⟨hset, hways, -⟩ := Amid.putGroup hput hown.apart hown.drafts
  have hstale := place_ne_of_filter hown.own
  -- writing the group clears the place of a stale file or leaves it alone, so its way stays paved
  have hnone : ∀ p ∈ stale.filter fun p => !files.any (·.1 = p),
      ∀ c ∈ files.flatMap swapChanges, c.1 = p.place → c.2 = none := by
    intro p hp c hc hplace
    obtain ⟨f, hf, hfc⟩ := List.mem_flatMap.1 hc
    rcases List.mem_pair.1 hfc with rfl | rfl
    · exact absurd hplace ((hstale p hp).2 f hf)
    · rfl
  have hgone := Amid.removals hremove (fun p hp => hown.proper p (hstale p hp).1)
    (fun p hp => hown.owned p (hstale p hp).1) fun p hp =>
      (hown.way p (hstale p hp).1).setsAt hset (hown.owned p (hstale p hp).1) (hnone p hp)
  refine ⟨hset.append hgone fun a ha b hb heq => ?_, fun f hf l hl => hgone.dirs l (hways f hf l hl)⟩
  obtain ⟨p, hp, rfl⟩ := List.mem_map.1 hb
  exact hnone p hp a ha heq

end Script
end Acceptance

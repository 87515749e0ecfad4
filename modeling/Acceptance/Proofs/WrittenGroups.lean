import Acceptance.Proofs.FileChanges
/-!
Groups of files that could be written. Each file is there with its content, what was to be removed is
gone unless it is one of the files, and nothing else has changed but for directories above the files.
-/
namespace Acceptance

open Script

namespace Path

variable {p q : Path} {slashes : Nat}

/-- A path as it is written in only one way: it is made of texts that all lead down. -/
structure Normal (slashes : Nat) (p : Path) : Prop where
  slashes : p.slashes = slashes
  texts : ∀ part ∈ p.parts, ∃ s : String, part = s
  down : ".." ∉ p.names

theorem normal_below {names : List String} (h : ".." ∉ names) :
    ((⟨slashes, []⟩ : Path).below names).Normal slashes := by
  refine ⟨rfl, fun part hpart => ?_, by simpa [Path.names, below, Function.comp_def] using h⟩
  obtain ⟨s, -, rfl⟩ := List.mem_map.1 hpart
  exact ⟨s, rfl⟩

namespace Normal

theorem parts_eq (h : p.Normal slashes) : p.parts = p.names.map Phrase.ofText := by
  have hsame : p.parts.map (Phrase.ofText ∘ Phrase.visible) = p.parts.map id := by
    refine List.map_congr_left fun part hpart => ?_
    obtain ⟨s, rfl⟩ := h.texts part hpart
    simp
  rw [names, List.map_map, hsame, List.map_id]

theorem place_eq (h : p.Normal slashes) : p.place = p.names := by
  rw [place, Tree.follow_of_not_mem h.down, List.nil_append]

theorem eq_of_place (hp : p.Normal slashes) (hq : q.Normal slashes) (h : p.place = q.place) :
    p = q := by
  rw [hp.place_eq, hq.place_eq] at h
  have hparts : p.parts = q.parts := by rw [hp.parts_eq, hq.parts_eq, h]
  have hslashes : p.slashes = q.slashes := hp.slashes.trans hq.slashes.symm
  calc p = ⟨p.slashes, p.parts⟩ := rfl
    _ = ⟨q.slashes, q.parts⟩ := by rw [hslashes, hparts]

theorem proper (h : p.Normal slashes) (hparts : p.parts ≠ []) : p.Proper := by
  refine ⟨hparts, fun hup => h.down ?_⟩
  rw [names_eq hparts, hup]
  simp

end Normal
end Path

/-! Removals. -/

namespace Tree

variable {t t' t₁ : Tree} {p : Path} {ps qs : List Path}

theorem Sound.get?_of_missing (hs : t.Sound) (hdown : ".." ∉ p.names)
    (h : t.remove p = .error .notFound) : t.get? p.place = none := by
  cases hl : t.locate p with
  | ok l =>
    cases hget : t.get? l with
    | none => rwa [← locate_eq_place hl]
    | some e =>
      cases e with
      | dir =>
        rw [remove_of_dir hl hget] at h
        cases h
      | file bytes =>
        have hok := remove_eq_ok.2 ⟨l, hl, by rw [file?_eq_some.2 hget]; simp, rfl⟩
        rw [hok] at h
        cases h
  | error cause =>
    rw [remove_of_error hl] at h
    cases h
    rw [locate] at hl
    split at hl
    · cases hl
    · obtain ⟨m, hm, hnone⟩ := exists_missing_of_walk hl
      obtain ⟨above, rest, hnames, hrest, rfl⟩ := mem_passed hdown hm
      by_contra hthere
      obtain ⟨e, he⟩ := Option.ne_none_iff_exists'.1 hthere
      rw [Path.place, follow_of_not_mem hdown, List.nil_append, hnames] at he
      rw [hs.get?_of_append he hrest] at hnone
      cases hnone

/-- Nothing is at the places of the paths, and no directory was. All else is as it was. -/
structure Cleared (t t' : Tree) (ps : List Path) : Prop where
  sound : t'.Sound
  gone : ∀ p ∈ ps, t'.get? p.place = none
  notDir : ∀ p ∈ ps, t.get? p.place ≠ some .dir
  kept : ∀ m, (∀ p ∈ ps, p.place ≠ m) → t'.get? m = t.get? m

namespace Cleared

theorem refl (hs : t.Sound) : t.Cleared t [] := ⟨hs, by simp, by simp, fun _ _ => rfl⟩

/-- What is gone does not come back. -/
theorem get?_of_none (h : t.Cleared t' ps) {m : Location} (hm : t.get? m = none) :
    t'.get? m = none := by
  by_cases hp : ∃ p ∈ ps, p.place = m
  · obtain ⟨p, hp, rfl⟩ := hp
    exact h.gone p hp
  · rwa [h.kept m fun p hmem hplace => hp ⟨p, hmem, hplace⟩]

theorem dir_iff (h : t.Cleared t' ps) {m : Location} :
    t'.get? m = some .dir ↔ t.get? m = some .dir := by
  by_cases hp : ∃ p ∈ ps, p.place = m
  · obtain ⟨p, hp, rfl⟩ := hp
    rw [h.gone p hp]
    exact iff_of_false (by simp) (h.notDir p hp)
  · rw [h.kept m fun p hmem hplace => hp ⟨p, hmem, hplace⟩]

theorem append (h₁ : t.Cleared t₁ ps) (h₂ : t₁.Cleared t' qs) : t.Cleared t' (ps ++ qs) := by
  refine ⟨h₂.sound, List.forall_mem_append.2 ⟨fun p hp => h₂.get?_of_none (h₁.gone p hp), h₂.gone⟩,
    List.forall_mem_append.2 ⟨h₁.notDir, fun q hq hdir => ?_⟩, fun m hm => ?_⟩
  · exact h₂.notDir q hq (h₁.dir_iff.2 hdir)
  · obtain ⟨hps, hqs⟩ := List.forall_mem_append.1 hm
    rw [h₂.kept m hqs, h₁.kept m hps]

end Cleared
end Tree

namespace Script

variable {w w' : World} {p : Path} {ps stale : List Path} {files : List (Path × String)}
  {slashes : Nat}

theorem cleared_removeIfThere (hs : w.tree.Sound) (hdown : ".." ∉ p.names)
    (h : (removeIfThere p).Does w () w') : w.tree.Cleared w'.tree [p] := by
  obtain ⟨-, ⟨t, hremove, rfl⟩ | ⟨hmiss, rfl⟩⟩ := does_removeIfThere.1 h
  · obtain ⟨l, hl, hfile, rfl⟩ := Tree.remove_eq_ok.1 hremove
    rw [Tree.locate_eq_place hl] at hfile ⊢
    have hdir : w.tree.get? p.place ≠ some .dir := fun hdir => hfile (Tree.file?_of_dir hdir)
    refine ⟨hs.erase hdir, List.forall_mem_singleton.2 (Tree.get?_erase_self ?_ _),
      List.forall_mem_singleton.2 hdir, fun m hm => ?_⟩
    · intro hroot
      rw [hroot] at hdir
      exact hdir (Tree.get?_root _)
    · exact Tree.get?_erase_of_ne (List.forall_mem_singleton.1 hm).symm _
  · have hnone := hs.get?_of_missing hdown hmiss
    refine ⟨hs, List.forall_mem_singleton.2 hnone, List.forall_mem_singleton.2 ?_, fun _ _ => rfl⟩
    rw [hnone]
    simp

theorem cleared_removals (hs : w.tree.Sound) (hdown : ∀ p ∈ ps, ".." ∉ p.names)
    (h : (ps.forM removeIfThere).Does w () w') : w.tree.Cleared w'.tree ps := by
  induction ps generalizing w with
  | nil =>
    rw [← does_forM_nil.1 h]
    exact .refl hs
  | cons p ps ih =>
    obtain ⟨hp, hps⟩ := List.forall_mem_cons.1 hdown
    obtain ⟨w₁, hfirst, hrest⟩ := does_forM_cons.1 h
    have hone := cleared_removeIfThere hs hp hfirst
    exact hone.append (ih hone.sound hps hrest)

end Script

/-! The whole group. -/

namespace Tree

/-- The files are there and no drafts, and what was to be removed is gone unless it is one of them.
Other files are as they were, and other directories too but for those above the files. -/
structure Replaces (t t' : Tree) (files : List (Path × String)) (stale : List Path) : Prop where
  target : ∀ f ∈ files, t'.get? f.1.place = some (.file (Text.encode f.2))
  gone : ∀ p ∈ stale, p ∉ files.map (·.1) → t'.get? p.place = none
  drafts : ∀ f ∈ files, t'.get? f.1.draftPlace = none
  kept : ∀ m, m ∉ files.map (·.1.place) → m ∉ stale.map (·.place) → t'.file? m = t.file? m
  dirs : ∀ m, t'.get? m = some .dir ↔ t.get? m = some .dir ∨
    ∃ f ∈ files, ∃ names, names ≠ [] ∧ f.1.place = m ++ names

variable {t t' : Tree} {files : List (Path × String)} {slashes : Nat} {m : Location}

theorem Sets.dir_iff (hs : t'.Sound) (hnormal : ∀ f ∈ files, f.1.Normal slashes)
    (hparts : ∀ f ∈ files, f.1.parts ≠ [])
    (h : t.Sets t' (files.map fun f => (f.1, some (Text.encode f.2)))) :
    t'.get? m = some .dir ↔ t.get? m = some .dir ∨
      ∃ f ∈ files, ∃ names, names ≠ [] ∧ f.1.place = m ++ names := by
  constructor
  · refine fun hdir => (h.fresh m hdir).imp_right ?_
    rintro ⟨c, hc, -, hway⟩
    obtain ⟨f, hf, rfl⟩ := List.mem_map.1 hc
    rw [← Path.passed_names (hparts f hf)] at hway
    obtain ⟨above, rest, hnames, hrest, rfl⟩ := mem_passed (hnormal f hf).down hway
    exact ⟨f, hf, rest, hrest, by rw [(hnormal f hf).place_eq, hnames]⟩
  · rintro (hold | ⟨f, hf, names, hne, hplace⟩)
    · exact h.dirs m hold
    · have hfile := file?_eq_some.1 (List.forall_mem_map.1 h.set f hf)
      exact hs.get?_of_append (hplace ▸ hfile) hne

end Tree

namespace Script

variable {w w' : World} {stale : List Path} {files : List (Path × String)} {slashes : Nat}

theorem parts_of_putGroup (h : (putGroup files).Does w () w') : ∀ f ∈ files, f.1.parts ≠ [] := by
  intro f hf
  obtain ⟨ss, w₁, hstage, -⟩ := does_bind.1 h
  obtain ⟨_, hss, -⟩ := does_stageAll.1 hstage
  exact (does_stages.1 hss).1.parts f (List.mem_mergeSort.2 hf)

theorem apart_of_normal (hnormal : ∀ f ∈ files, f.1.Normal slashes) (hparts : ∀ f ∈ files, f.1.parts ≠ [])
    (hnodup : (files.map (·.1)).Nodup)
    (hdrafts : ∀ f ∈ files, ∀ g ∈ files, f.1.draftPlace ≠ g.1.place) : Apart files := by
  refine ⟨fun f hf => (hnormal f hf).proper (hparts f hf), ?_, hdrafts⟩
  refine (List.pairwise_map.1 hnodup).imp_of_mem fun hf hg hne hplace => hne ?_
  exact (hnormal _ hf).eq_of_place (hnormal _ hg) hplace

/-- A group that is written does what was asked and nothing else. -/
theorem written_group_exact (hs : w.tree.Sound) (hnormal : ∀ f ∈ files, f.1.Normal slashes)
    (hstale : ∀ p ∈ stale, p.Normal slashes) (hnodup : (files.map (·.1)).Nodup)
    (hdrafts : ∀ f ∈ files, ∀ g ∈ files, f.1.draftPlace ≠ g.1.place)
    (hfree : ∀ f ∈ files, w.tree.file? f.1.draftPlace = none)
    (h : (writeGroup files stale).Does w () w') : w.tree.Replaces w'.tree files stale := by
  obtain ⟨w₁, hput, hremove⟩ := does_writeGroup.1 h
  have hparts := parts_of_putGroup hput
  have hapart := apart_of_normal hnormal hparts hnodup hdrafts
  have hwrote := hput.wrote hapart
  have hset := hwrote.sets (hput.writable hapart) hfree
  -- Normal paths with one place are equal, so the removals leave the targets out by their places too.
  have hown := place_ne_of_filter fun p hp f hf hplace =>
    (hnormal f hf).eq_of_place (hstale p hp) hplace.symm
  have hclear := cleared_removals (hwrote.sound hs)
    (fun p hp => (hstale p (hown p hp).1).down) hremove
  refine ⟨fun f hf => ?_, fun p hp hnot => ?_, fun f hf => hclear.get?_of_none (hwrote.gone f hf),
    fun m hm hm' => ?_,
    fun m => hclear.dir_iff.trans (hset.dir_iff (hwrote.sound hs) hnormal hparts)⟩
  · rw [hclear.kept _ fun p hp hplace => (hown p hp).2 f hf hplace.symm]
    exact Tree.file?_eq_some.1 (hwrote.target f hf)
  · refine hclear.gone p (List.mem_filter.2 ⟨hp, ?_⟩)
    rw [Bool.not_eq_true', List.any_eq_false]
    intro f hf hsame
    exact hnot (List.mem_map.2 ⟨f, hf, of_decide_eq_true hsame⟩)
  · rw [Tree.file?_congr (hclear.kept m fun p hp hplace => hm' ?_)]
    · refine hset.kept m (List.forall_mem_map.2 fun f hf hplace => hm ?_)
      exact List.mem_map.2 ⟨f, hf, hplace⟩
    · exact List.mem_map.2 ⟨p, (hown p hp).1, hplace⟩

/-! A file that is written though it is listed for removal, one in a new directory, one that is
removed and one that was never there. -/

def desk : World :=
  { tree := ⟨[(["a"], .file (Text.encode "old")), (["in"], .dir), (["in", "b"], .file (Text.encode "b")),
      (["c"], .file (Text.encode "c"))]⟩ }

def fromDesk (names : List String) : Path := (⟨0, []⟩ : Path).below names

def deskFiles : List (Path × String) := [(fromDesk ["a"], "new"), (fromDesk ["out", "box", "d"], "d")]

def deskStale : List Path := [fromDesk ["a"], fromDesk ["in", "b"], fromDesk ["lost", "e"]]

def deskAfter : World :=
  { tree := ⟨[(["out", "box", "d"], .file (Text.encode "d")), (["a"], .file (Text.encode "new")),
      (["out", "box"], .dir), (["out"], .dir), (["in"], .dir), (["c"], .file (Text.encode "c"))]⟩ }

theorem does_desk : (writeGroup deskFiles deskStale).Does desk () deskAfter := by
  have hsorted : (deskFiles.mergeSort fun a b => a.1.le b.1) = deskFiles :=
    List.mergeSort_of_pairwise (by decide +kernel)
  rw [Does, writeGroup, hsorted]
  rfl

theorem written_group_exact_desk : (writeGroup deskFiles deskStale).Does desk () deskAfter ∧
    desk.tree.Replaces deskAfter.tree deskFiles deskStale := by
  have hs : desk.tree.Sound := ⟨by decide, by decide, by decide⟩
  have hnormal : ∀ f ∈ deskFiles, f.1.Normal 0 := by
    simp only [deskFiles, List.forall_mem_cons, List.not_mem_nil, false_imp_iff, implies_true, and_true]
    exact ⟨Path.normal_below (by decide), Path.normal_below (by decide)⟩
  have hstale : ∀ p ∈ deskStale, p.Normal 0 := by
    simp only [deskStale, List.forall_mem_cons, List.not_mem_nil, false_imp_iff, implies_true, and_true]
    exact ⟨Path.normal_below (by decide), Path.normal_below (by decide), Path.normal_below (by decide)⟩
  exact ⟨does_desk, written_group_exact hs hnormal hstale (by decide) (by decide) (by decide) does_desk⟩

end Script
end Acceptance

import Mathlib.Data.Set.List
import Acceptance.Proofs.TidyFiles
/-!
Pruning in tidy directories: what is left there of a spec goes away unless it is to be kept, and
nothing else changes. Where all is to be kept pruning does nothing at all.
-/
namespace Acceptance.Project

open Script

variable {start ending name : String} {p : Path}

theorem fitsName_iff : fitsName start ending name = true ↔
    ∃ rest, name.toList = start.toList ++ (rest ++ ending.toList) := by
  simp only [fitsName, Bool.and_eq_true, List.isPrefixOf_iff_prefix, List.isSuffixOf_iff_suffix,
    decide_eq_true_eq]
  constructor
  · rintro ⟨⟨⟨rest, hrest⟩, hend⟩, hlength⟩
    have hfits : ending.toList.length ≤ rest.length := by
      have hname := congrArg List.length hrest
      simp only [List.length_append, String.length_toList] at hname ⊢
      omega
    rw [← hrest] at hend
    obtain ⟨mid, hmid⟩ := List.suffix_of_suffix_length_le hend (List.suffix_append ..) hfits
    exact ⟨mid, by rw [hmid, hrest]⟩
  · rintro ⟨rest, hrest⟩
    have hname := congrArg List.length hrest
    simp only [List.length_append, String.length_toList] at hname
    refine ⟨⟨⟨_, hrest.symm⟩, ⟨start.toList ++ rest, ?_⟩⟩, by omega⟩
    rw [List.append_assoc, hrest]

theorem Part.fitsName_iff {part : Part} (hstart : start.toList = part.start)
    (hending : ending.toList = part.ending) :
    fitsName start ending name = true ↔ ∃ slug, name = part.file slug := by
  rw [Project.fitsName_iff, hstart, hending]
  constructor
  · rintro ⟨rest, hrest⟩
    refine ⟨String.ofList rest, String.toList_inj.1 ?_⟩
    rw [hrest, part.toList_file, String.toList_ofList]
  · rintro ⟨slug, rfl⟩
    exact ⟨slug.toList, part.toList_file slug⟩

/-- What comes and goes together. -/
def Part.group : Part → List Part
  | .plan => [.plan]
  | _ => [.tests, .manifest]

namespace Places

variable {root : Path} {settings : Settings} {s : Places root settings} {part : Part} {w w' : World}

theorem path_slug_injective : Function.Injective (s.path part) := by
  intro a b h
  have hname := congrArg Path.name h
  rw [name_path, name_path] at hname
  exact Part.file_injective hname

theorem manifestBeside_path {slug : String} :
    manifestBeside (s.path .tests slug) = s.path .manifest slug := by
  have hname : String.ofList ((Part.tests.file slug).toList.take ((Part.tests.file slug).length - 3)) ++
      ".json" = Part.manifest.file slug := by
    apply String.toList_inj.1
    rw [String.toList_append, String.toList_ofList, ← String.length_toList, Part.toList_file,
      Part.toList_file, ← List.append_assoc, ← List.append_assoc]
    congr 1
    apply List.take_left'
    simp only [List.length_append, Part.ending]
    exact (Nat.add_sub_cancel ..).symm
  rw [manifestBeside, name_path, hname, Path.withName, parent_path]
  rfl

/-- Pruning looks at all that has the name of a part. -/
theorem exists_children (part : Part) (hstat : w.tree.stat (s.dir part) = .ok (some .dir))
    (start ending : String) (hstart : start.toList = part.start) (hending : ending.toList = part.ending) :
    ∃ slugs : List String,
      (childrenNamed start ending (s.dir part)).Does w (slugs.map (s.path part)) w ∧
      ∀ slug, slug ∈ slugs ↔ w.tree.get? (s.path part slug).place ≠ none := by
  obtain ⟨ps, hps⟩ := exists_childrenNamed start ending (s.dir part) w
  have hmem : ∀ p, p ∈ ps ↔ ∃ slug, s.path part slug = p ∧ w.tree.get? p.place ≠ none := by
    intro p
    rw [mem_childrenNamed hstat hps]
    constructor
    · rintro ⟨name, hfits, hget, rfl⟩
      obtain ⟨slug, rfl⟩ := (part.fitsName_iff hstart hending).1 hfits
      rw [← place_path] at hget
      exact ⟨slug, rfl, hget⟩
    · rintro ⟨slug, rfl, hget⟩
      rw [place_path] at hget
      exact ⟨_, (part.fitsName_iff hstart hending).2 ⟨slug, rfl⟩, hget, rfl⟩
  have hrange : ps ∈ Set.range (List.map (s.path part)) := by
    rw [Set.range_list_map]
    intro p hp
    obtain ⟨slug, hslug, -⟩ := (hmem p).1 hp
    exact ⟨slug, hslug⟩
  obtain ⟨slugs, rfl⟩ := hrange
  refine ⟨slugs, hps, fun slug => ?_⟩
  rw [← List.mem_map_of_injective path_slug_injective, hmem]
  constructor
  · rintro ⟨-, -, hget⟩
    exact hget
  · exact fun hget => ⟨slug, rfl, hget⟩

/-- The files with the names of a part are gone through, if their directory is there. -/
def Sweeps {β : Type} (s : Places root settings) (part : Part) (f : Path → Script β)
    (w w' : World) : Prop :=
  (isDir (s.dir part)).Does w false w ∧ w' = w ∨
    (isDir (s.dir part)).Does w true w ∧ ∃ (slugs : List String) (bs : List β),
      (∀ slug, slug ∈ slugs ↔ w.tree.get? (s.path part slug).place ≠ none) ∧
      ((slugs.map (s.path part)).mapM f).Does w bs w'

variable {keep names : List String}

/-- If a directory is gone through where it is there, so are the files with the names of a part. -/
theorem sweeps_of_does {β γ : Type} {f : Path → Script β} {each : List Path → Script γ} {c d : γ}
    (start ending : String) (hstart : start.toList = part.start)
    (hending : ending.toList = part.ending)
    (heach : ∀ ps v, (each ps).Does v d w' → ∃ bs, (ps.mapM f).Does v bs w')
    (h : (isDir (s.dir part) >>= fun b =>
      if b then childrenNamed start ending (s.dir part) >>= each else pure c).Does w d w') :
    s.Sweeps part f w w' := by
  obtain ⟨b, w₁, hdir, h⟩ := does_bind.1 h
  obtain ⟨rfl, -⟩ := does_isDir.1 hdir
  cases b with
  | false => exact .inl ⟨hdir, (does_pure.1 h).2.symm⟩
  | true =>
    obtain ⟨-, -, hstat⟩ := does_isDir_true.1 hdir
    rw [if_pos rfl] at h
    obtain ⟨ps, w₂, hps, hrest⟩ := does_bind.1 h
    obtain ⟨slugs, hslugs, hmem⟩ := exists_children part hstat start ending hstart hending
    obtain ⟨rfl, rfl⟩ := hps.unique hslugs
    obtain ⟨bs, hbs⟩ := heach _ _ hrest
    exact .inr ⟨hdir, slugs, bs, hmem, hbs⟩

theorem sweeps_pruneTests (h : (pruneTests s.tests keep).Does w names w') :
    s.Sweeps .tests (pruneTest keep) w w' := by
  refine sweeps_of_does "test_" ".py" rfl rfl (fun ps v heach => ?_) h
  obtain ⟨bs, w₁, hbs, hend⟩ := does_bind.1 heach
  obtain ⟨-, rfl⟩ := does_pure.1 hend
  exact ⟨bs, hbs⟩

theorem sweeps_prunePlans (h : (prunePlans s.plans keep).Does w () w') :
    s.Sweeps .plan (prunePlan keep) w w' :=
  sweeps_of_does "" ".json" rfl rfl (fun _ _ => does_forM.1) h

end Places

namespace Site

open Places

variable {root : Path} {settings : Settings} {s : Site root settings} {part : Part} {slug : String}
  {keep : List String} {w w' v : World} {β : Type}

/-- What is removed of a spec, unless it is to be kept. -/
def cleared (s : Site root settings) (part : Part) (keep : List String) (slug : String) : Changes :=
  if part.file slug ∈ keep then [] else s.ofSlug slug (part.group.map fun part => (part, none))

theorem orderly_cleared : s.Orderly (s.cleared part keep slug) := by
  unfold cleared
  split
  · exact orderly_nil
  · cases part <;> apply orderly_ofSlug <;> simp [Part.group]

theorem mem_cleared {c : Path × Option ByteArray} : c ∈ s.cleared part keep slug ↔
    part.file slug ∉ keep ∧ ∃ part' ∈ part.group, c = (s.path part' slug, none) := by
  unfold cleared
  split
  · next hkeep => simp [hkeep]
  · next hkeep => simp [hkeep, ofSlug, eq_comm]

/-- What is to be kept is left alone. -/
theorem sets_cleared {γ : Type} {next : Script γ} {kept b : γ}
    (hdoes : (if keep.contains (part.file slug) then pure kept else next).Does w b w')
    (hnext : next.Does w b w' →
      w.tree.Sets w'.tree (s.ofSlug slug (part.group.map fun part => (part, none)))) :
    w.tree.Sets w'.tree (s.cleared part keep slug) := by
  unfold cleared
  by_cases hkeep : part.file slug ∈ keep
  · rw [if_pos (List.contains_iff_mem.2 hkeep)] at hdoes
    obtain ⟨-, rfl⟩ := does_pure.1 hdoes
    rw [if_pos hkeep]
    exact .refl _
  · rw [if_neg (mt List.contains_iff_mem.1 hkeep)] at hdoes
    rw [if_neg hkeep]
    exact hnext hdoes

theorem Tidy.sets_pruneTest (h : s.Tidy w.tree) {names : List String}
    (hdoes : (pruneTest keep (s.path .tests slug)).Does w names w') :
    w.tree.Sets w'.tree (s.cleared .tests keep slug) := by
  rw [pruneTest, name_path] at hdoes
  refine sets_cleared hdoes fun hdoes => ?_
  obtain ⟨b, w₁, hlook, hdoes⟩ := does_bind.1 hdoes
  obtain ⟨hb, rfl⟩ := does_isGenerated.1 hlook
  cases b with
  | true =>
    obtain ⟨w₁, hfirst, hdoes⟩ := does_seq.1 hdoes
    obtain ⟨w₂, hsecond, hdoes⟩ := does_seq.1 hdoes
    obtain ⟨-, rfl⟩ := does_pure.1 hdoes
    rw [manifestBeside_path] at hsecond
    have hset := sets_remove proper_path hfirst
    have hreach : w₁.tree.Reaches (s.path .manifest slug) :=
      reaches_of_sets hset (by simp) h.reaches
    exact hset.append (sets_removeIfThere proper_path hreach hsecond) (by simp)
  | false =>
    -- in a tidy directory a module without the mark is none at all, and then has no manifest
    obtain ⟨-, rfl⟩ := does_pure.1 hdoes
    have htests := h.file?_of_testFileOf hb
    have hmanifest : w.tree.file? (s.path .manifest slug).place = none := by
      by_contra hfile
      obtain ⟨bytes, hbytes⟩ := Option.ne_none_iff_exists'.1 hfile
      exact (h.owns hbytes).beside rfl htests
    refine .of_none (List.forall_mem_cons.2 ⟨⟨rfl, htests⟩, ?_⟩)
    exact List.forall_mem_singleton.2 ⟨rfl, hmanifest⟩

theorem Tidy.sets_prunePlan (h : s.Tidy w.tree) {u : Unit}
    (hdoes : (prunePlan keep (s.path .plan slug)).Does w u w') :
    w.tree.Sets w'.tree (s.cleared .plan keep slug) := by
  rw [prunePlan, name_path] at hdoes
  refine sets_cleared hdoes fun hdoes => ?_
  obtain ⟨b, w₁, hlook, hdoes⟩ := does_bind.1 hdoes
  obtain ⟨hb, rfl⟩ := does_isPlanFile.1 hlook
  cases b with
  | true => exact sets_remove proper_path hdoes
  | false =>
    obtain ⟨-, rfl⟩ := does_pure.1 hdoes
    exact .of_none (List.forall_mem_singleton.2 ⟨rfl, h.file?_of_planFileOf hb⟩)

/-- A step that clears one spec clears them all, one after the other. -/
theorem Tidy.sets_mapM {f : Path → Script β} (h : s.Tidy w.tree)
    (hstep : ∀ slug b w w', s.Tidy w.tree → (f (s.path part slug)).Does w b w' →
      w.tree.Sets w'.tree (s.cleared part keep slug)) {slugs : List String} {bs : List β}
    (hdoes : ((slugs.map (s.path part)).mapM f).Does w bs w') :
    w.tree.Sets w'.tree (slugs.flatMap (s.cleared part keep)) ∧ s.Tidy w'.tree := by
  induction slugs generalizing w bs with
  | nil =>
    obtain ⟨-, rfl⟩ := does_mapM_nil.1 hdoes
    exact ⟨.refl _, h⟩
  | cons slug slugs ih =>
    obtain ⟨b, rest, w₁, hb, hrest, -⟩ := does_mapM_cons.1 hdoes
    have hset := hstep slug b w w₁ h hb
    obtain ⟨hsets, htidy⟩ := ih (h.sets hset orderly_cleared) hrest
    refine ⟨hset.append hsets fun a ha c hc _ => ?_, htidy⟩
    obtain ⟨slug', -, hc⟩ := List.mem_flatMap.1 hc
    obtain ⟨-, _, -, rfl⟩ := mem_cleared.1 ha
    obtain ⟨-, _, -, rfl⟩ := mem_cleared.1 hc
    rfl

/-- What is not to be kept is gone, and nothing else has changed. -/
structure Pruned (s : Site root settings) (part : Part) (keep : List String) (t t' : Tree) :
    Prop where
  sets : ∃ slugs : List String, t.Sets t' (slugs.flatMap (s.cleared part keep))
  tidy : s.Tidy t'
  gone : ∀ part' ∈ part.group, ∀ slug, part.file slug ∉ keep →
    t'.file? (s.path part' slug).place = none

namespace Pruned

variable {t t' : Tree}

theorem kept (h : s.Pruned part keep t t') {m : Location}
    (hm : ∀ part' ∈ part.group, ∀ slug, part.file slug ∉ keep → (s.path part' slug).place ≠ m) :
    t'.file? m = t.file? m := by
  obtain ⟨slugs, hsets⟩ := h.sets
  refine hsets.kept m fun c hc => ?_
  obtain ⟨slug, -, hc⟩ := List.mem_flatMap.1 hc
  obtain ⟨hkeep, part', hpart', rfl⟩ := mem_cleared.1 hc
  exact hm part' hpart' slug hkeep

theorem get?_dir (h : s.Pruned part keep t t') {m : Location} :
    t'.get? m = some .dir ↔ t.get? m = some .dir := by
  obtain ⟨slugs, hsets⟩ := h.sets
  refine ⟨fun hdir => ?_, hsets.dirs m⟩
  rcases hsets.fresh m hdir with hdir | ⟨c, hc, hsome, -⟩
  · exact hdir
  · obtain ⟨slug, -, hc⟩ := List.mem_flatMap.1 hc
    obtain ⟨-, _, -, rfl⟩ := mem_cleared.1 hc
    exact absurd rfl hsome

end Pruned

/-- The directory of a file of a spec is found. -/
theorem Tidy.isDir (h : s.Tidy w.tree) (hfile : w.tree.file? (s.path part slug).place ≠ none) :
    (Script.isDir (s.dir part)).Does w true w := by
  obtain ⟨hleads, husable⟩ := h.reaches hfile
  have hparent : (s.path part slug).parent = s.dir part := parent_path
  have hflaw := Path.flaw?_parent husable.flaw
  have hsize := Path.size_parent husable.size
  rw [hparent] at hleads hflaw hsize
  exact does_isDir_true.2 ⟨rfl, hflaw, Tree.stat_eq_dir.2 ⟨hsize, hleads⟩⟩

/-- No part of a group is there without the first. -/
theorem Tidy.file?_of_group {t : Tree} (h : s.Tidy t) (hpart : part ≠ .manifest) {part' : Part}
    (hgroup : part' ∈ part.group) (hfile : t.file? (s.path part' slug).place ≠ none) :
    t.file? (s.path part slug).place ≠ none := by
  obtain ⟨bytes, hbytes⟩ := Option.ne_none_iff_exists'.1 hfile
  have hbeside := (h.owns hbytes).beside
  cases part <;> cases part' <;> simp_all [Part.group]

theorem Tidy.pruned (h : s.Tidy w.tree) (hpart : part ≠ .manifest) {f : Path → Script β}
    (hstep : ∀ slug b w w', s.Tidy w.tree → (f (s.path part slug)).Does w b w' →
      w.tree.Sets w'.tree (s.cleared part keep slug))
    (hsweeps : s.toPlaces.Sweeps part f w w') : s.Pruned part keep w.tree w'.tree := by
  rcases hsweeps with ⟨hdir, rfl⟩ | ⟨hdir, slugs, bs, hmem, hdoes⟩
  · refine ⟨⟨[], .refl _⟩, h, fun part' hgroup slug _ => ?_⟩
    by_contra hfile
    have htrue := h.isDir (h.file?_of_group hpart hgroup hfile)
    cases (hdir.unique htrue).1
  · obtain ⟨hsets, htidy⟩ := h.sets_mapM hstep hdoes
    refine ⟨⟨slugs, hsets⟩, htidy, fun part' hgroup slug hkeep => ?_⟩
    by_contra hfile
    have hthere : w.tree.file? (s.path part slug).place ≠ none := by
      refine h.file?_of_group hpart hgroup ?_
      rwa [← hsets.file?_of_none _ hfile]
      intro c hc
      obtain ⟨slug, -, hc⟩ := List.mem_flatMap.1 hc
      obtain ⟨-, _, -, rfl⟩ := mem_cleared.1 hc
      rfl
    have hslug : slug ∈ slugs := (hmem slug).2 fun hnone => hthere (Tree.file?_of_none hnone)
    have hset := hsets.set (s.path part' slug, none)
      (List.mem_flatMap.2 ⟨slug, hslug, mem_cleared.2 ⟨hkeep, part', hgroup, rfl⟩⟩)
    exact hfile hset

theorem Tidy.pruned_tests (h : s.Tidy w.tree) {names : List String}
    (hdoes : (pruneTests s.tests keep).Does w names w') : s.Pruned .tests keep w.tree w'.tree := by
  refine h.pruned (by simp) (fun slug b w w' h => h.sets_pruneTest) ?_
  exact sweeps_pruneTests hdoes

theorem Tidy.pruned_plans (h : s.Tidy w.tree)
    (hdoes : (prunePlans s.plans keep).Does w () w') : s.Pruned .plan keep w.tree w'.tree := by
  refine h.pruned (by simp) (fun slug b w w' h => h.sets_prunePlan) ?_
  exact sweeps_prunePlans hdoes

end Site

/-! Pruning where nothing is to be pruned. -/

theorem replyOf_of_none {w : World} (hfile : w.tree.file? p.place = none) :
    ∃ e, replyOf w p = .error e ∧ (p.flaw? = none → ∃ e', e = .os e') := by
  cases hread : w.tree.read p with
  | ok bytes =>
    obtain ⟨l, hl, hbytes⟩ := Tree.read_eq_ok.1 hread
    rw [Tree.locate_eq_place hl, hfile] at hbytes
    cases hbytes
  | error cause =>
    unfold replyOf World.look
    rw [hread]
    cases p.flaw? with
    | none => exact ⟨_, rfl, fun _ => ⟨_, rfl⟩⟩
    | some flaw => exact ⟨_, rfl, fun h => by cases h⟩

/-- No answer is given about a path that no file can have. -/
theorem flaw?_of_testFileOf {w : World} {b : Bool} (h : testFileOf (replyOf w p) = .ok b) :
    p.flaw? = none := by
  cases hflaw : p.flaw? with
  | none => rfl
  | some flaw =>
    unfold replyOf World.look at h
    rw [hflaw] at h
    cases h

theorem does_mapM_const {α β : Type} {f : α → Script β} {as : List α} {b : β} {w : World}
    (h : ∀ a ∈ as, (f a).Does w b w) : (as.mapM f).Does w (as.map fun _ => b) w := by
  induction as with
  | nil => exact does_mapM_nil.2 ⟨rfl, rfl⟩
  | cons a as ih =>
    obtain ⟨ha, has⟩ := List.forall_mem_cons.1 h
    exact does_mapM_cons.2 ⟨b, _, w, ha, ih has, rfl⟩

namespace Places

variable {root : Path} {settings : Settings} {s : Places root settings} {part : Part} {slug : String}
  {keep : List String} {w w' v : World} {β : Type}

theorem does_pruneTest_of_none (hflaw : (s.path .tests slug).flaw? = none)
    (hfile : v.tree.file? (s.path .tests slug).place = none) :
    (pruneTest keep (s.path .tests slug)).Does v [] v := by
  unfold pruneTest
  split
  · exact does_pure.2 ⟨rfl, rfl⟩
  · obtain ⟨e, hreply, hos⟩ := replyOf_of_none hfile
    obtain ⟨e, rfl⟩ := hos hflaw
    have hlook : (isGenerated (s.path .tests slug)).Does v false v := by
      refine does_isGenerated.2 ⟨?_, rfl⟩
      rw [hreply]
      exact testFileOf_of_error e
    exact does_bind.2 ⟨false, v, hlook, does_pure.2 ⟨rfl, rfl⟩⟩

theorem flaw?_of_pruneTest {names : List String} (hkeep : p.name ∉ keep)
    (h : (pruneTest keep p).Does w names w') : p.flaw? = none := by
  unfold pruneTest at h
  rw [if_neg (mt List.contains_iff_mem.1 hkeep)] at h
  obtain ⟨b, w₁, hlook, -⟩ := does_bind.1 h
  exact flaw?_of_testFileOf (does_isGenerated.1 hlook).1

theorem does_prunePlan_of_none (hfile : v.tree.file? (s.path .plan slug).place = none) :
    (prunePlan keep (s.path .plan slug)).Does v () v := by
  unfold prunePlan
  split
  · exact does_pure.2 ⟨rfl, rfl⟩
  · obtain ⟨e, hreply, -⟩ := replyOf_of_none hfile
    have hlook : (isPlanFile (s.path .plan slug)).Does v false v := by
      refine does_isPlanFile.2 ⟨?_, rfl⟩
      rw [hreply]
      exact planFileOf_of_error e
    exact does_bind.2 ⟨false, v, hlook, does_pure.2 ⟨rfl, rfl⟩⟩

/-- Where there are fewer directories the same ones are asked for, and those that are there have
been looked at. -/
theorem Sweeps.under {f : Path → Script β} (h : s.Sweeps part f w w')
    (hdirs : ∀ m, v.tree.get? m = some .dir → w.tree.get? m = some .dir) :
    ∃ b, (isDir (s.dir part)).Does v b v ∧ (b = true → ∀ slug,
      v.tree.get? (s.path part slug).place = some .dir →
        ∃ w₁ b w₂, (f (s.path part slug)).Does w₁ b w₂) := by
  rcases h with ⟨hdir, -⟩ | ⟨hdir, slugs, bs, hmem, hdoes⟩
  · obtain ⟨b, hb, himp⟩ := does_isDir_of_dirs hdir fun m _ => hdirs m
    refine ⟨b, hb, fun htrue => ?_⟩
    cases himp htrue
  · obtain ⟨b, hb, -⟩ := does_isDir_of_dirs hdir fun m _ => hdirs m
    refine ⟨b, hb, fun _ slug hslug => does_of_mem_mapM hdoes _ (List.mem_map_of_mem ?_)⟩
    rw [hmem, hdirs _ hslug]
    simp

/-- Where all modules are to be kept there is nothing to prune, as long as pruning goes through where
there is more. -/
theorem does_pruneTests_under (hsweeps : s.Sweeps .tests (pruneTest keep) w w')
    (hdirs : ∀ m, v.tree.get? m = some .dir → w.tree.get? m = some .dir)
    (hkeep : ∀ slug, v.tree.file? (s.path .tests slug).place ≠ none → Part.tests.file slug ∈ keep) :
    (pruneTests s.tests keep).Does v [] v := by
  obtain ⟨b, hb, hkids⟩ := hsweeps.under hdirs
  refine does_bind.2 ⟨b, v, hb, ?_⟩
  cases b with
  | false => exact does_pure.2 ⟨rfl, rfl⟩
  | true =>
    obtain ⟨-, -, hstat⟩ := does_isDir_true.1 hb
    obtain ⟨slugs, hslugs, hmem⟩ := exists_children .tests hstat "test_" ".py" rfl rfl
    have hidle : ∀ p ∈ slugs.map (s.path .tests), (pruneTest keep p).Does v [] v := by
      refine List.forall_mem_map.2 fun slug hslug => ?_
      by_cases hkept : Part.tests.file slug ∈ keep
      · rw [pruneTest, name_path, if_pos (List.contains_iff_mem.2 hkept)]
        exact does_pure.2 ⟨rfl, rfl⟩
      · have hnone : v.tree.file? (s.path .tests slug).place = none := by
          by_contra hfile
          exact hkept (hkeep slug hfile)
        -- what has the name of a module and is no file is a directory
        have hdir : v.tree.get? (s.path .tests slug).place = some .dir := by
          obtain ⟨e, he⟩ := Option.ne_none_iff_exists'.1 ((hmem slug).1 hslug)
          cases e with
          | dir => exact he
          | file bytes =>
            rw [Tree.file?_eq_some.2 he] at hnone
            cases hnone
        obtain ⟨w₁, names, w₂, hdoes⟩ := hkids rfl slug hdir
        refine does_pruneTest_of_none (flaw?_of_pruneTest ?_ hdoes) hnone
        rwa [name_path]
    refine does_bind.2 ⟨_, v, hslugs, ?_⟩
    refine does_bind.2 ⟨_, v, does_mapM_const hidle, does_pure.2 ⟨?_, rfl⟩⟩
    simp

theorem does_prunePlans_under (hsweeps : s.Sweeps .plan (prunePlan keep) w w')
    (hdirs : ∀ m, v.tree.get? m = some .dir → w.tree.get? m = some .dir)
    (hkeep : ∀ slug, v.tree.file? (s.path .plan slug).place ≠ none → Part.plan.file slug ∈ keep) :
    (prunePlans s.plans keep).Does v () v := by
  obtain ⟨b, hb, -⟩ := hsweeps.under hdirs
  refine does_bind.2 ⟨b, v, hb, ?_⟩
  cases b with
  | false => exact does_pure.2 ⟨rfl, rfl⟩
  | true =>
    obtain ⟨-, -, hstat⟩ := does_isDir_true.1 hb
    obtain ⟨slugs, hslugs, hmem⟩ := exists_children .plan hstat "" ".json" rfl rfl
    have hidle : ∀ p ∈ slugs.map (s.path .plan), (prunePlan keep p).Does v () v := by
      refine List.forall_mem_map.2 fun slug _ => ?_
      by_cases hkept : Part.plan.file slug ∈ keep
      · rw [prunePlan, name_path, if_pos (List.contains_iff_mem.2 hkept)]
        exact does_pure.2 ⟨rfl, rfl⟩
      · refine does_prunePlan_of_none ?_
        by_contra hfile
        exact hkept (hkeep slug hfile)
    exact does_bind.2 ⟨_, v, hslugs, does_forM.2 ⟨_, does_mapM_const hidle⟩⟩

end Places

end Acceptance.Project

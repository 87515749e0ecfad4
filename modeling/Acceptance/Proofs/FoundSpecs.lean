import Mathlib.Data.String.Basic
import Acceptance.Proofs.SpecsKept
/-!
The specs that a project finds. They are told by the files below a directory, so two trees with the
same files there have the same specs, in the same order.
-/
namespace Acceptance.Project

open Script

variable {specs owned : List Claimant} {c : Claimant}

/-- The path leads from the directory to a file that could be a spec. -/
def Found (t : Tree) (dir p : Path) : Prop :=
  ∃ names bytes, p = dir.below names ∧ t.Leads dir ∧
    t.get? (dir.place ++ names) = some (.file bytes) ∧ IsSpecPlace (dir.place ++ names)

/-- All spec files below a directory. -/
def specsBelow (t : Tree) (dir : Path) : List Path :=
  (t.listBelow dir).filterMap fun (names, kind) =>
    if kind = .file ∧ fitsName "" ".gwt" (names.getLast?.getD "") then some (dir.below names)
    else none

section Below

variable {t u : Tree} {dir p : Path}

theorem below_injective (dir : Path) : Function.Injective dir.below := by
  intro a b h
  have hnames := congrArg Path.names h
  rwa [Tree.names_below, Tree.names_below, List.append_cancel_left_eq] at hnames

theorem key_below (dir : Path) (names : List String) : (dir.below names).key = dir.key ++ names := by
  rw [Path.key, Path.key, Tree.names_below]
  change (if dir.isAbsolute then dir.root :: (dir.names ++ names) else dir.names ++ names) = _
  split <;> rfl

theorem mem_specsBelow (hs : t.Sound) (hstat : t.stat dir = .ok (some .dir)) :
    p ∈ specsBelow t dir ↔ Found t dir p := by
  have hleads := (Tree.stat_eq_dir.1 hstat).2
  rw [specsBelow, Tree.listBelow_of_stat hstat, List.mem_filterMap]
  constructor
  · rintro ⟨⟨names, kind⟩, hmem, hp⟩
    obtain ⟨⟨_, e⟩, hbelow, heq⟩ := List.mem_map.1 hmem
    obtain ⟨rfl, rfl⟩ := Prod.mk.inj heq
    obtain ⟨hne, hget⟩ := hs.mem_below.1 hbelow
    dsimp only at hp
    split at hp
    · next hspec =>
      cases e with
      | dir => cases hspec.1
      | file bytes =>
        cases hp
        refine ⟨_, bytes, rfl, hleads, hget, ?_⟩
        rw [IsSpecPlace, List.getLast?_append_of_ne_nil _ hne]
        exact hspec.2
    · cases hp
  · rintro ⟨names, bytes, rfl, -, hget, hspec⟩
    have hne : names ≠ [] := by
      rintro rfl
      rw [List.append_nil, hleads.dir] at hget
      cases hget
    rw [IsSpecPlace, List.getLast?_append_of_ne_nil _ hne] at hspec
    have hbelow := hs.mem_below.2 ⟨hne, hget⟩
    exact ⟨(names, .file), List.mem_map.2 ⟨_, hbelow, rfl⟩, if_pos ⟨rfl, hspec⟩⟩

theorem nodup_specsBelow (hs : t.Sound) (hstat : t.stat dir = .ok (some .dir)) :
    (specsBelow t dir).Nodup := by
  have hlist : (t.listBelow dir).Nodup := by
    rw [Tree.listBelow_of_stat hstat]
    refine (hs.nodup_below _).map_on ?_
    rintro ⟨names, e⟩ hf ⟨names', e'⟩ hg heq
    obtain ⟨rfl, -⟩ := Prod.mk.inj heq
    have hget := (hs.mem_below.1 hf).2.symm.trans (hs.mem_below.1 hg).2
    rw [Option.some.inj hget]
  refine hlist.filterMap ?_
  rintro ⟨names, kind⟩ ⟨names', kind'⟩ p hp hp'
  obtain ⟨⟨rfl, -⟩, hpath⟩ := Option.ite_none_right_eq_some.1 hp
  obtain ⟨⟨rfl, -⟩, hpath'⟩ := Option.ite_none_right_eq_some.1 hp'
  rw [below_injective dir (Option.some.inj (hpath.trans hpath'.symm))]

/-! Paths in order. -/

theorem le_iff {q : Path} : p.le q = true ↔ p.key ≤ q.key := by
  rw [Path.le, Bool.not_eq_true', decide_eq_false_iff_not, not_lt]

/-- The order of paths is settled where they differ in their names. -/
theorem sortPaths_eq_of_perm {ps qs : List Path} (h : ps.Perm qs)
    (hkey : ∀ p ∈ ps, ∀ q ∈ qs, p.key = q.key → p = q) : sortPaths ps = sortPaths qs := by
  have hsorted (l : List Path) : (sortPaths l).Pairwise fun p q => p.le q = true := by
    apply List.pairwise_mergeSort
    · intro a b c hab hbc
      rw [le_iff] at hab hbc ⊢
      exact hab.trans hbc
    · intro a b
      rw [Bool.or_eq_true, le_iff, le_iff]
      exact le_total _ _
  apply List.Perm.eq_of_pairwise _ (hsorted ps) (hsorted qs)
  · exact (List.mergeSort_perm ..).trans (h.trans (List.mergeSort_perm ..).symm)
  · intro p q hp hq hpq hqp
    refine hkey p ((List.mergeSort_perm ..).mem_iff.1 hp) q ((List.mergeSort_perm ..).mem_iff.1 hq) ?_
    exact le_antisymm (le_iff.1 hpq) (le_iff.1 hqp)

/-- Two trees have the same specs below a directory. -/
structure SameSpecs (dir : Path) (t u : Tree) : Prop where
  leads : t.Leads dir ↔ u.Leads dir
  files : ∀ names, IsSpecPlace (dir.place ++ names) →
    t.file? (dir.place ++ names) = u.file? (dir.place ++ names)

namespace SameSpecs

theorem symm (h : SameSpecs dir t u) : SameSpecs dir u t :=
  ⟨h.leads.symm, fun names hspec => (h.files names hspec).symm⟩

theorem found (h : SameSpecs dir t u) (hp : Found t dir p) : Found u dir p := by
  obtain ⟨names, bytes, rfl, hleads, hget, hspec⟩ := hp
  refine ⟨names, bytes, rfl, h.leads.1 hleads, ?_, hspec⟩
  rw [← Tree.file?_eq_some, ← h.files names hspec, Tree.file?_eq_some, hget]

theorem stat (h : SameSpecs dir t u) (hstat : t.stat dir = .ok (some .dir)) :
    u.stat dir = .ok (some .dir) := by
  obtain ⟨hsize, hleads⟩ := Tree.stat_eq_dir.1 hstat
  exact Tree.stat_eq_dir.2 ⟨hsize, h.leads.1 hleads⟩

theorem sortPaths_specsBelow (h : SameSpecs dir t u) (ht : t.Sound) (hu : u.Sound)
    (hstat : t.stat dir = .ok (some .dir)) :
    sortPaths (specsBelow t dir) = sortPaths (specsBelow u dir) := by
  have hmem := fun p => mem_specsBelow (p := p) ht hstat
  have hmem' := fun p => mem_specsBelow (p := p) hu (h.stat hstat)
  apply sortPaths_eq_of_perm
  · rw [List.perm_ext_iff_of_nodup (nodup_specsBelow ht hstat) (nodup_specsBelow hu (h.stat hstat))]
    intro p
    rw [hmem, hmem']
    exact ⟨h.found, h.symm.found⟩
  · intro p hp q hq hkey
    obtain ⟨names, -, rfl, -⟩ := (hmem p).1 hp
    obtain ⟨names', -, rfl, -⟩ := (hmem' q).1 hq
    rw [key_below, key_below, List.append_cancel_left_eq] at hkey
    rw [hkey]

end SameSpecs

end Below

section Reading

variable {w v : World} {dir p : Path}

theorem replyOf_congr (h : v.tree.read p = w.tree.read p) : replyOf v p = replyOf w p := by
  unfold replyOf World.look
  rw [h]
  cases p.flaw? <;> rfl

theorem replyOf_of_keepsSpecs (hk : w.tree.KeepsSpecs v.tree) (hs : w.tree.Sound)
    (hp : Found w.tree dir p) : replyOf v p = replyOf w p := by
  obtain ⟨names, bytes, rfl, hdir, hfile, hspec⟩ := hp
  exact replyOf_congr (hk.read_below hs hdir hfile hspec)

theorem SameSpecs.replyOf_eq (h : SameSpecs dir w.tree v.tree) (hw : w.tree.Sound)
    (hv : v.tree.Sound) (hp : Found w.tree dir p) : replyOf v p = replyOf w p := by
  obtain ⟨names', bytes', hbelow, hdir', hfile', -⟩ := h.found hp
  obtain ⟨names, bytes, rfl, hdir, hfile, hspec⟩ := hp
  obtain rfl := below_injective dir hbelow
  have hway := hw.way_below hdir hfile
  have hway' := hv.way_below hdir' hfile'
  refine replyOf_congr (Tree.read_congr (fun m hm => ⟨hway' m hm, hway m hm⟩) ?_)
  rw [hw.place_below hfile, hfile, ← Tree.file?_eq_some, ← h.files names hspec,
    Tree.file?_eq_some, hfile]

end Reading

section Finding

variable {dir : Path} {w w' v v' : World} {paths : List Path}

theorem does_specFiles_iff : (specFiles dir).Does w paths w' ↔ w' = w ∧
    ∃ b, (isDir dir).Does w b w ∧ paths = if b then sortPaths (specsBelow w.tree dir) else [] := by
  constructor
  · intro h
    obtain ⟨b, w₁, hdir, hrest⟩ := does_bind.1 h
    obtain ⟨rfl, -⟩ := does_isDir.1 hdir
    cases b with
    | false =>
      obtain ⟨rfl, rfl⟩ := does_pure.1 hrest
      exact ⟨rfl, false, hdir, rfl⟩
    | true =>
      obtain ⟨found, w₂, hfound, hend⟩ := does_bind.1 hrest
      obtain ⟨rfl, rfl⟩ := does_listBelow.1 hfound
      obtain ⟨rfl, rfl⟩ := does_pure.1 hend
      exact ⟨rfl, true, hdir, rfl⟩
  · rintro ⟨rfl, b, hdir, rfl⟩
    refine does_bind.2 ⟨b, w', hdir, ?_⟩
    cases b with
    | false => exact does_pure.2 ⟨rfl, rfl⟩
    | true => exact does_bind.2 ⟨_, w', does_listBelow.2 ⟨rfl, rfl⟩, does_pure.2 ⟨rfl, rfl⟩⟩

/-- Specs that are listed in order are found in this order. -/
theorem does_specFiles_of_sorted (hdir : (isDir dir).Does w true w)
    (hspecs : specsBelow w.tree dir = paths) (hsorted : paths.Pairwise fun p q => p.le q = true) :
    (specFiles dir).Does w paths w := by
  refine does_specFiles_iff.2 ⟨rfl, true, hdir, ?_⟩
  rw [if_pos rfl, hspecs]
  exact (List.mergeSort_of_pairwise hsorted).symm

theorem does_specFiles (hs : w.tree.Sound) (h : (specFiles dir).Does w paths w') :
    w' = w ∧ ∀ p ∈ paths, Found w.tree dir p := by
  obtain ⟨rfl, b, hdir, rfl⟩ := does_specFiles_iff.1 h
  refine ⟨rfl, fun p hp => ?_⟩
  cases b with
  | false => cases hp
  | true =>
    obtain ⟨-, -, hstat⟩ := does_isDir_true.1 hdir
    rw [if_pos rfl, sortPaths, (List.mergeSort_perm ..).mem_iff] at hp
    exact (mem_specsBelow hs hstat).1 hp

theorem nodup_specFiles (hs : w.tree.Sound) (h : (specFiles dir).Does w paths w') : paths.Nodup := by
  obtain ⟨rfl, b, hdir, rfl⟩ := does_specFiles_iff.1 h
  cases b with
  | false => exact List.nodup_nil
  | true =>
    obtain ⟨-, -, hstat⟩ := does_isDir_true.1 hdir
    exact (List.mergeSort_perm ..).nodup_iff.2 (nodup_specsBelow hs hstat)

/-- The same specs are found, if one can ask for their directory. -/
theorem SameSpecs.does_specFiles (h : SameSpecs dir w.tree v.tree) (hw : w.tree.Sound)
    (hv : v.tree.Sound) (hdoes : (specFiles dir).Does w paths w') {b : Bool}
    (hdir : (isDir dir).Does v b v) : (specFiles dir).Does v paths v := by
  obtain ⟨-, b', hdir', rfl⟩ := does_specFiles_iff.1 hdoes
  refine does_specFiles_iff.2 ⟨rfl, b, hdir, ?_⟩
  cases b with
  | false =>
    cases b' with
    | false => rfl
    | true =>
      obtain ⟨-, hflaw, hstat⟩ := does_isDir_true.1 hdir'
      have htrue := does_isDir_true.2 ⟨rfl, hflaw, h.stat hstat⟩
      cases (hdir.unique htrue).1
  | true =>
    obtain ⟨-, hflaw, hstat⟩ := does_isDir_true.1 hdir
    have hstat' := h.symm.stat hstat
    have htrue := does_isDir_true.2 ⟨rfl, hflaw, hstat'⟩
    obtain rfl := (hdir'.unique htrue).1
    exact h.sortPaths_specsBelow hw hv hstat'

theorem Found.exists_slug {t : Tree} {p : Path} (h : Found t dir p) :
    ∃ slug, specSlug dir p = .ok slug := by
  obtain ⟨names, -, rfl, -⟩ := h
  rw [specSlug, Path.relativeTo?_below]
  exact ⟨_, rfl⟩

theorem slug_of_mem_claimants (h : claimants dir paths = .ok specs) :
    ∀ c ∈ specs, c.path ∈ paths ∧ specSlug dir c.path = .ok c.slug := by
  intro c hc
  obtain ⟨p, hp, hclaim⟩ := exists_of_mem_mapM h c hc
  obtain ⟨slug, hslug, hclaim⟩ := bind_eq_ok.1 hclaim
  cases hclaim
  exact ⟨hp, hslug⟩

theorem mem_of_mem_owners (h : c ∈ owners owned specs) : c ∈ owned ∨ c ∈ specs := by
  induction specs generalizing owned with
  | nil => exact .inl h
  | cons d specs ih =>
    rw [owners] at h
    split at h
    · exact (ih h).imp_right (List.mem_cons_of_mem _)
    · rcases ih h with h | h
      · rcases List.mem_append.1 h with h | h
        · exact .inl h
        · exact .inr (List.mem_cons.2 (.inl (List.mem_singleton.1 h)))
      · exact .inr (List.mem_cons_of_mem _ h)

theorem nodup_owners (h : (owned.map (·.slug)).Nodup) :
    ((owners owned specs).map (·.slug)).Nodup := by
  induction specs generalizing owned with
  | nil => exact h
  | cons c specs ih =>
    rw [owners]
    split
    · exact ih h
    · next hfree =>
      apply ih
      rw [List.map_append, List.nodup_append]
      refine ⟨h, List.nodup_singleton _, fun a ha b hb heq => hfree ?_⟩
      obtain ⟨d, hd, rfl⟩ := List.mem_map.1 ha
      obtain rfl := List.mem_singleton.1 hb
      exact List.any_eq_true.2 ⟨d, hd, decide_eq_true heq⟩

theorem mem_owners_of_mem (h : c ∈ owned) : c ∈ owners owned specs := by
  induction specs generalizing owned with
  | nil => exact h
  | cons d specs ih =>
    rw [owners]
    split
    · exact ih h
    · exact ih (List.mem_append_left _ h)

/-- Every slug that is asked for has an owner. -/
theorem exists_owner (h : c ∈ specs) : ∃ o ∈ owners owned specs, o.slug = c.slug := by
  induction specs generalizing owned with
  | nil => cases h
  | cons d specs ih =>
    rw [owners]
    rcases List.mem_cons.1 h with rfl | h
    · split
      · next htaken =>
        obtain ⟨o, ho, hslug⟩ := List.any_eq_true.1 htaken
        exact ⟨o, mem_owners_of_mem ho, of_decide_eq_true hslug⟩
      · exact ⟨c, mem_owners_of_mem (by simp), rfl⟩
    · split
      · exact ih h
      · exact ih h

/-- A spec that is not told that its name is taken owns it. -/
theorem mem_owners_of_collision? {root : Path} (hc : c ∈ specs)
    (h : collision? root (owners [] specs) c = none) : c ∈ owners [] specs := by
  unfold collision? at h
  split at h
  · next hfind =>
    obtain ⟨o, ho, hslug⟩ : ∃ o ∈ owners [] specs, o.slug = c.slug := exists_owner hc
    exact absurd (decide_eq_true hslug) (List.find?_eq_none.1 hfind o ho)
  · next o hfind =>
    split at h
    · next heq => exact heq ▸ List.mem_of_find?_eq_some hfind
    · cases h

end Finding

section Owners

variable {root : Path} {settings : Settings} {s : Places root settings} {w : World}

/-- Each owner of a name is a spec that was found. -/
theorem found_of_mem_owners (hw : w.tree.Sound) {paths : List Path}
    (hpaths : (specFiles s.specs).Does w paths w) (hspecs : claimants s.specs paths = .ok specs) :
    ∀ c ∈ owners [] specs, Found w.tree s.specs c.path ∧ specSlug s.specs c.path = .ok c.slug := by
  intro c hc
  have hclaims := (mem_of_mem_owners hc).resolve_left (by simp)
  obtain ⟨hmem, hslug⟩ := slug_of_mem_claimants hspecs c hclaims
  exact ⟨(does_specFiles hw hpaths).2 _ hmem, hslug⟩

end Owners

end Acceptance.Project

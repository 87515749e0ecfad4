import Acceptance.Proofs.EmittedLines
/-!
Slugs as names of files. The slug of a path is made of groups of slug characters with one underscore
between each two, and that of a description has hyphens for its gaps. Nothing is left in them that
another pass would change, so each is its own slug.
-/
namespace Acceptance.Emission

open Text

variable {cs run : List Char} {groups : List (List Char)} {c : Char}

/-! Characters that lower case leaves alone. -/

theorem lower_of_isSlugChar (h : isSlugChar c = true) : lower c = [c] := by
  have hrange := toNat_of_isSlugChar h
  have hne {d : Char} (hd : 122 < d.toNat) : c ≠ d := by
    rintro rfl
    omega
  have hlow : ¬(c.val ≥ 'A'.val ∧ c.val ≤ 'Z'.val) := by
    change ¬(65 ≤ c.toNat ∧ c.toNat ≤ 90)
    omega
  have hsame : c.toLower = c := dif_neg hlow
  rw [lower, if_neg (hne (by decide)), if_neg (hne (by decide)), hsame]

theorem flatMap_lower (h : ∀ c ∈ cs, isSlugChar c = true ∨ c = '_' ∨ c = '-') :
    cs.flatMap lower = cs := by
  have hsame : ∀ c ∈ cs, lower c = [c] := by
    intro c hc
    rcases h c hc with hslug | rfl | rfl
    · exact lower_of_isSlugChar hslug
    · rfl
    · rfl
  rw [List.flatMap_congr hsame]
  exact List.flatMap_singleton' cs

/-! Groups between underscores. -/

/-- A run that ends where no slug character is next is found whole. -/
theorem slugRuns_append (h : IsRun run) (hcs : ∀ c ∈ cs.head?, isSlugChar c = false) :
    slugRuns (run ++ cs) = run :: slugRuns cs := by
  obtain ⟨hne, hslug⟩ := h
  induction run with
  | nil => exact absurd rfl hne
  | cons c run ih =>
    obtain ⟨hc, hrun⟩ := List.forall_mem_cons.1 hslug
    cases run with
    | nil =>
      cases cs with
      | nil => simp [slugRuns, hc]
      | cons d cs =>
        have hd : isSlugChar d = false := hcs d rfl
        simp [slugRuns, hc, hd]
    | cons d run =>
      have hlater := ih (List.cons_ne_nil d run) hrun
      rw [List.cons_append] at hlater
      rw [List.cons_append, List.cons_append, slugRuns, if_pos hc]
      rw [if_pos (hrun d List.mem_cons_self), hlater]

theorem slugRuns_joined (h : ∀ g ∈ groups, IsRun g) :
    slugRuns (['_'].intercalate groups) = groups := by
  induction groups with
  | nil => rfl
  | cons g groups ih =>
    obtain ⟨hg, hgroups⟩ := List.forall_mem_cons.1 h
    cases groups with
    | nil =>
      have hend : ∀ c ∈ ([] : List Char).head?, isSlugChar c = false := by simp
      simpa [slugRuns] using slugRuns_append hg hend
    | cons g' groups =>
      rw [List.intercalate_cons_cons, List.append_assoc, slugRuns_append hg (by simp [isSlugChar])]
      simp [slugRuns, isSlugChar, ih hgroups]

/-- A text that is safe as the name of a file: no path separator and no dot can be in it. -/
structure IsFileName (cs : List Char) : Prop where
  ne_nil : cs ≠ []
  parts : ∀ c ∈ cs, IsNamePart c
  start : cs.head? ≠ some '_'
  stop : cs.getLast? ≠ some '_'
  single : ¬['_', '_'] <:+: cs

theorem IsRun.not_mem (h : IsRun run) : '_' ∉ run := fun hmem => absurd (h.slug _ hmem) (by decide)

theorem IsRun.isFileName (h : IsRun run) : IsFileName run where
  ne_nil := h.ne_nil
  parts c hc := .inl (h.slug c hc)
  start hstart := h.not_mem (List.mem_of_head? hstart)
  stop hstop := h.not_mem (List.mem_of_getLast? hstop)
  single hin := h.not_mem (hin.subset List.mem_cons_self)

theorem IsFileName.join (h : IsFileName cs) (hrun : IsRun run) : IsFileName (run ++ '_' :: cs) where
  ne_nil := by simp
  parts := List.forall_mem_append.2
    ⟨hrun.isFileName.parts, List.forall_mem_cons.2 ⟨.inr rfl, h.parts⟩⟩
  start := by
    rw [List.head?_append_of_ne_nil _ hrun.ne_nil]
    exact hrun.isFileName.start
  stop := by
    rw [List.getLast?_append_cons, List.getLast?_cons_of_ne_nil h.ne_nil]
    exact h.stop
  single := by
    intro hin
    have hcs : ¬['_', '_'] <:+: '_' :: cs := by
      intro hin
      rcases List.infix_cons_iff.1 hin with ⟨more, hpre⟩ | hin
      · apply h.start
        rw [← (List.cons.inj hpre).2]
        rfl
      · exact h.single hin
    rcases List.infix_append_iff.1 hin with hin | hin | ⟨l, m, hlm, hend, hstart⟩
    · exact hrun.isFileName.single hin
    · exact hcs hin
    · cases l with
      | nil => exact hcs (hlm ▸ hstart.isInfix)
      | cons d l => exact hrun.not_mem (hend.subset ((List.cons.inj hlm).1 ▸ List.mem_cons_self))

theorem isFileName_joined (hne : groups ≠ []) (h : ∀ g ∈ groups, IsRun g) :
    IsFileName (['_'].intercalate groups) := by
  induction groups with
  | nil => exact absurd rfl hne
  | cons g groups ih =>
    obtain ⟨hg, hgroups⟩ := List.forall_mem_cons.1 h
    cases groups with
    | nil => simpa using hg.isFileName
    | cons g' groups =>
      rw [List.intercalate_cons_cons, List.append_assoc]
      exact (ih (List.cons_ne_nil g' groups) hgroups).join hg

/-- Groups of slug characters, joined by single underscores. -/
def IsGrouped (cs : List Char) : Prop :=
  ∃ groups, groups ≠ [] ∧ (∀ g ∈ groups, IsRun g) ∧ cs = ['_'].intercalate groups

theorem toList_underscored (s : String) :
    (underscored s).toList = ['_'].intercalate (slugRuns (s.toList.flatMap lower)) := by
  rw [underscored, String.toList_intercalate, List.map_map]
  simp [Function.comp_def]

theorem isGrouped_moduleSlug (s : String) : IsGrouped (moduleSlug s).toList := by
  unfold moduleSlug
  dsimp only
  split
  · refine ⟨["spec".toList], by simp, List.forall_mem_singleton.2 ⟨by decide, ?_⟩, by decide⟩
    exact List.all_eq_true.1 (by decide)
  · next hne =>
    refine ⟨_, fun hnone => hne ?_, isRun_of_mem_slugRuns _, toList_underscored _⟩
    rw [← String.toList_inj, toList_underscored, hnone]
    rfl

theorem IsGrouped.isFileName (h : IsGrouped cs) : IsFileName cs := by
  obtain ⟨groups, hne, hgroups, rfl⟩ := h
  exact isFileName_joined hne hgroups

theorem IsFileName.not_mem (h : IsFileName cs) (hslug : isSlugChar c = false) (hc : c ≠ '_') :
    c ∉ cs := by
  intro hmem
  rcases h.parts c hmem with hpart | rfl
  · exact absurd hpart (by rw [hslug]; decide)
  · exact hc rfl

theorem stem_of_not_mem {s : String} (h : '.' ∉ s.toList) : stem s = s := by
  rw [stem]
  refine if_neg fun hend => h ((List.isSuffixOf_iff_suffix.1 hend).subset ?_)
  decide

/-- Nothing but a slug is its own slug. -/
theorem moduleSlug_eq_self_iff {s : String} : moduleSlug s = s ↔ IsGrouped s.toList := by
  constructor
  · intro h
    rw [← h]
    exact isGrouped_moduleSlug s
  · intro h
    have hname := h.isFileName
    obtain ⟨groups, hne, hgroups, hs⟩ := h
    have hsame : underscored s = s := by
      rw [← String.toList_inj, toList_underscored,
        flatMap_lower fun c hc => (hname.parts c hc).imp_right .inl, hs, slugRuns_joined hgroups]
    rw [moduleSlug, stem_of_not_mem (hname.not_mem (by decide) (by decide)), hsame]
    refine if_neg fun hnil => hname.ne_nil ?_
    rw [hnil]
    rfl

/-! Hyphens in place of gaps. -/

/-- A text of slug characters and hyphens that neither begins nor ends with a hyphen. -/
structure IsHyphenated (cs : List Char) : Prop where
  parts : ∀ c ∈ cs, isSlugChar c = true ∨ c = '-'
  start : cs.head? ≠ some '-'
  stop : cs.getLast? ≠ some '-'

theorem dropEnds_eq_self {p : Char → Bool} (hstart : ∀ c ∈ cs.head?, p c = false)
    (hstop : ∀ c ∈ cs.getLast?, p c = false) : (cs.dropWhile p).rdropWhile p = cs := by
  have hfirst : cs.dropWhile p = cs := by
    cases cs with
    | nil => rfl
    | cons c cs => exact List.dropWhile_cons_of_neg (by simpa using hstart c rfl)
  rw [hfirst, List.rdropWhile_eq_self_iff]
  intro hne
  simpa using hstop _ (List.getLast?_eq_some_getLast hne)

theorem mem_hyphenGaps {inGap : Bool} (h : c ∈ hyphenGaps inGap cs) :
    c ∈ cs ∧ isBlank c = false ∨ c = '-' := by
  fun_induction hyphenGaps inGap cs with
  | case1 => cases h
  | case2 d cs _ ih => exact (ih h).imp_left fun hc => ⟨.tail _ hc.1, hc.2⟩
  | case3 inGap d cs _ _ ih =>
    rcases List.mem_cons.1 h with rfl | h
    · exact .inr rfl
    · exact (ih h).imp_left fun hc => ⟨.tail _ hc.1, hc.2⟩
  | case4 inGap d cs hd ih =>
    rcases List.mem_cons.1 h with rfl | h
    · exact .inl ⟨.head _, by simpa using hd⟩
    · exact (ih h).imp_left fun hc => ⟨.tail _ hc.1, hc.2⟩

theorem hyphenGaps_of_no_blank (h : ∀ c ∈ cs, isBlank c = false) : hyphenGaps false cs = cs := by
  induction cs with
  | nil => rfl
  | cons c cs ih =>
    obtain ⟨hc, hcs⟩ := List.forall_mem_cons.1 h
    simp [hyphenGaps, hc, ih hcs]

theorem isHyphenated_trimHyphens (h : ∀ c ∈ cs, isSlugChar c = true ∨ c = '-') :
    IsHyphenated (trimHyphens cs) := by
  have hpre : trimHyphens cs <+: cs.dropWhile (· = '-') := List.rdropWhile_prefix _ _
  have hfirst := List.head?_dropWhile_not (· = '-') cs
  have hlast := List.head?_dropWhile_not (· = '-') (cs.dropWhile (· = '-')).reverse
  refine ⟨fun c hc => h c ((List.dropWhile_suffix _).subset (hpre.subset hc)), fun hstart => ?_,
    fun hstop => ?_⟩
  · obtain ⟨more, hmore⟩ := hpre
    rw [← hmore, List.head?_append, hstart] at hfirst
    simp at hfirst
  · rw [trimHyphens, List.getLast?_reverse] at hstop
    rw [hstop] at hlast
    simp at hlast

theorem isHyphenated_hyphenated (s : String) : IsHyphenated (hyphenated s).toList := by
  rw [hyphenated, String.toList_ofList]
  refine isHyphenated_trimHyphens fun c hc => ?_
  rcases mem_hyphenGaps hc with ⟨hkept, hblank⟩ | rfl
  · simpa [hblank] using (List.mem_filter.1 hkept).2
  · exact .inr rfl

theorem isBlank_of_isSlugChar (h : isSlugChar c = true) : isBlank c = false := by
  have hrange := toNat_of_isSlugChar h
  simp [isBlank]
  omega

/-- Nothing but a slug is its own slug. -/
theorem hyphenated_eq_self_iff {s : String} : hyphenated s = s ↔ IsHyphenated s.toList := by
  constructor
  · intro h
    rw [← h]
    exact isHyphenated_hyphenated s
  · intro h
    have hblank : ∀ c ∈ s.toList, isBlank c = false := by
      intro c hc
      rcases h.parts c hc with hslug | rfl
      · exact isBlank_of_isSlugChar hslug
      · rfl
    have htrim : trim s.toList = s.toList := dropEnds_eq_self
      (fun c hc => hblank c (List.mem_of_head? hc)) fun c hc => hblank c (List.mem_of_getLast? hc)
    have hkept : s.toList.filter (fun c => isSlugChar c || isBlank c || c == '-') = s.toList := by
      refine List.filter_eq_self.2 fun c hc => ?_
      rcases h.parts c hc with hslug | rfl
      · rw [hslug]
        rfl
      · rfl
    have hhyphen : trimHyphens s.toList = s.toList := by
      refine dropEnds_eq_self (fun c hc => ?_) fun c hc => ?_
      · refine decide_eq_false fun he => h.start ?_
        rw [← he]
        exact hc
      · refine decide_eq_false fun he => h.stop ?_
        rw [← he]
        exact hc
    rw [hyphenated, flatMap_lower fun c hc => (h.parts c hc).imp_right .inr, htrim, hkept,
      hyphenGaps_of_no_blank hblank, hhyphen, String.ofList_toList]

/-- The slug of a path is groups of slug characters, joined by single underscores, and the slug of a
description is slug characters and hyphens without a hyphen at either end. Both kinds of slugs, and
no other texts, are their own slugs. -/
theorem slugs_safe_and_stable (s : String) :
    IsGrouped (moduleSlug s).toList ∧ IsFileName (moduleSlug s).toList ∧
    (∀ c ∈ ['/', '\\', '.'], c ∉ (moduleSlug s).toList) ∧
    moduleSlug (moduleSlug s) = moduleSlug s ∧ (moduleSlug s = s ↔ IsGrouped s.toList) ∧
    IsHyphenated (hyphenated s).toList ∧ hyphenated (hyphenated s) = hyphenated s ∧
    (hyphenated s = s ↔ IsHyphenated s.toList) := by
  have hgrouped := isGrouped_moduleSlug s
  have hname := hgrouped.isFileName
  have hhyphens := isHyphenated_hyphenated s
  refine ⟨hgrouped, hname, ?_, moduleSlug_eq_self_iff.2 hgrouped, moduleSlug_eq_self_iff, hhyphens,
    hyphenated_eq_self_iff.2 hhyphens, hyphenated_eq_self_iff⟩
  simp only [List.forall_mem_cons]
  exact ⟨hname.not_mem rfl (by decide), hname.not_mem rfl (by decide),
    hname.not_mem rfl (by decide), List.forall_mem_nil _⟩

end Acceptance.Emission

import Mathlib.Data.List.DropRight
import Acceptance.Text.Blank
import Acceptance.Text.Lines
import Acceptance.Text.Search
/-!
Texts on one line, texts without blanks at their ends, and texts in which some word does not occur.
-/
namespace Acceptance.Text

variable {cs ds : List Char} {c : Char}

/-- No character of the text ends a line. -/
def OneLine (cs : List Char) : Prop := ∀ c ∈ cs, isBreak c = false

theorem forall_mem_of_all {P : Char → Prop} [DecidablePred P]
    (h : (cs.all fun c => decide (P c)) = true) : ∀ c ∈ cs, P c := by
  simpa using h

theorem oneLine_of_all (h : (cs.all fun c => !isBreak c) = true) : OneLine cs :=
  fun c hc => by simpa using List.all_eq_true.1 h c hc

theorem oneLine_cons :
    OneLine (c :: cs) ↔ isBreak c = false ∧ OneLine cs := by
  simp [OneLine]

theorem oneLine_append : OneLine (cs ++ ds) ↔ OneLine cs ∧ OneLine ds := by
  simp only [OneLine, List.mem_append]
  constructor
  · exact fun h => ⟨fun c hc => h c (.inl hc), fun c hc => h c (.inr hc)⟩
  · rintro ⟨hcs, hds⟩ c (hc | hc)
    · exact hcs c hc
    · exact hds c hc

theorem oneLine_of_mem_lines : ∀ l ∈ lines cs, OneLine l := by
  fun_induction lines cs with
  | case1 => simp
  | case2 cs ih => simpa [OneLine] using ih
  | case3 c cs _ _ ih => simpa [OneLine] using ih
  | case4 c cs _ hc ih =>
    have hc' : isBreak c = false := by simpa using hc
    cases hls : lines cs with
    | nil => simp [consLine, hc', OneLine]
    | cons l ls =>
      rw [hls] at ih
      intro m hm
      rcases List.mem_cons.1 hm with rfl | hm
      · exact oneLine_cons.2 ⟨hc', ih l List.mem_cons_self⟩
      · exact ih m (List.mem_cons_of_mem _ hm)

theorem lines_cons_of_oneLine {l : List Char} (h : OneLine l) :
    lines (l ++ '\n' :: cs) = l :: lines cs := by
  induction l with
  | nil => simp [lines, isBreak]
  | cons c l ih =>
    obtain ⟨hc, hl⟩ := oneLine_cons.1 h
    have hcr : c ≠ '\r' := by
      rintro rfl
      simp [isBreak] at hc
    rw [List.cons_append, lines]
    · simp [hc, ih hl, consLine]
    · intro _ hr
      exact absurd hr hcr

/-- The lines of a text that is made of lines. -/
theorem lines_flatMap {ls : List (List Char)} (h : ∀ l ∈ ls, OneLine l) :
    lines (ls.flatMap (· ++ ['\n'])) = ls := by
  induction ls with
  | nil => rfl
  | cons l ls ih =>
    rw [List.flatMap_cons, List.append_assoc, List.singleton_append,
      lines_cons_of_oneLine (h l List.mem_cons_self), ih fun m hm => h m (List.mem_cons_of_mem _ hm)]

theorem trimEnd_eq_rdropWhile (cs : List Char) : trimEnd cs = cs.rdropWhile isBlank := rfl

theorem trimEnd_isPrefix (cs : List Char) : trimEnd cs <+: cs := List.rdropWhile_prefix isBlank cs

theorem trimEnd_append_singleton (h : isBlank c = false) : trimEnd (cs ++ [c]) = cs ++ [c] :=
  List.rdropWhile_concat_neg isBlank cs c (by simp [h])

theorem trimEnd_append_blank (h : isBlank c = true) : trimEnd (cs ++ [c]) = trimEnd cs :=
  List.rdropWhile_concat_pos isBlank cs c h

/-- What trimming takes away is blank. -/
theorem exists_append_of_trimEnd (cs : List Char) :
    ∃ ds, cs = trimEnd cs ++ ds ∧ ∀ c ∈ ds, isBlank c = true :=
  ⟨cs.rtakeWhile isBlank, List.rdropWhile_append_rtakeWhile.symm,
    fun _ hc => List.mem_rtakeWhile_imp hc⟩

/-- No blank stands at either end of the text. -/
structure Trimmed (cs : List Char) : Prop where
  start : trimStart cs = cs
  stop : trimEnd cs = cs

theorem Trimmed.trim (h : Trimmed cs) : trim cs = cs := by
  rw [Text.trim, h.start, h.stop]

theorem trimStart_of_isPrefix (h : trimStart ds = ds) (hp : cs <+: ds) : trimStart cs = cs := by
  cases cs with
  | nil => rfl
  | cons c cs =>
    obtain ⟨es, rfl⟩ := hp
    simp only [trimStart, List.cons_append, List.dropWhile_cons] at h ⊢
    split at h
    · have hlen := congrArg List.length h
      have hle := (List.dropWhile_suffix isBlank (l := cs ++ es)).length_le
      simp only [List.length_cons] at hlen
      omega
    · next hc => simp [hc]

theorem trimmed_trim (cs : List Char) : Trimmed (trim cs) where
  start := trimStart_of_isPrefix (List.dropWhile_idempotent isBlank cs) (trimEnd_isPrefix _)
  stop := List.rdropWhile_idempotent isBlank _

theorem trim_isInfix (cs : List Char) : trim cs <:+: cs :=
  (trimEnd_isPrefix _).isInfix.trans (List.dropWhile_suffix isBlank).isInfix

theorem OneLine.of_isInfix (h : OneLine ds) (hi : cs <:+: ds) : OneLine cs :=
  fun c hc => h c (hi.subset hc)

theorem trimEnd_append (h : trimEnd ds = ds) (hne : ds ≠ []) : trimEnd (cs ++ ds) = cs ++ ds := by
  rw [trimEnd_eq_rdropWhile, List.rdropWhile_eq_self_iff] at h ⊢
  intro hne'
  rw [List.getLast_append_of_ne_nil hne' hne]
  exact h hne

theorem trimStart_append (h : trimStart cs = cs) (hne : cs ≠ []) :
    trimStart (cs ++ ds) = cs ++ ds := by
  unfold trimStart at h ⊢
  rw [List.dropWhile_append, h, if_neg (by simpa using hne)]

theorem trimmed_append (hcs : trimStart cs = cs) (hds : trimEnd ds = ds) (hcsne : cs ≠ [])
    (hdsne : ds ≠ []) : Trimmed (cs ++ ds) :=
  ⟨trimStart_append hcs hcsne, trimEnd_append hds hdsne⟩

theorem occurs_iff {p : List Char} : occurs p cs = true ↔ p <:+: cs := by
  induction cs with
  | nil => cases p <;> simp [occurs]
  | cons c cs ih => simp [occurs, ih, List.infix_cons_iff]

/-- A word does not occur across a character that is not in it. -/
theorem infix_append_cons {p : List Char} (hc : c ∉ p) (h : p <:+: cs ++ c :: ds) :
    p <:+: cs ∨ p <:+: ds := by
  rcases List.infix_append_iff.1 h with h | h | ⟨l₁, l₂, rfl, h₁, h₂⟩
  · exact .inl h
  · rcases List.infix_cons_iff.1 h with h | h
    · cases p with
      | nil => exact .inl List.nil_infix
      | cons d p => simp_all
    · exact .inr h
  · cases l₂ with
    | nil => exact .inl (by simpa using h₁.isInfix)
    | cons d l₂ => simp_all

/-- A run of characters of a class ends before the first that is not of it. -/
theorem span_append {p : Char → Bool} {rest : List Char} (hds : ∀ d ∈ ds, p d = true)
    (hrest : ∀ c ∈ rest.head?, p c = false) :
    (ds ++ rest).takeWhile p = ds ∧ (ds ++ rest).dropWhile p = rest := by
  rw [List.takeWhile_append_of_pos hds, List.dropWhile_append_of_pos hds]
  cases rest with
  | nil => simp
  | cons c rest =>
    have hc : p c = false := hrest c rfl
    simp [hc]

/-- The first place of a character splits a text in one way only. -/
theorem append_cons_inj {cs' ds' : List Char} (hcs : c ∉ cs) (hds : c ∉ ds)
    (h : cs ++ c :: cs' = ds ++ c :: ds') : cs = ds ∧ cs' = ds' := by
  induction cs generalizing ds with
  | nil =>
    cases ds with
    | nil => exact ⟨rfl, (List.cons.inj h).2⟩
    | cons d ds => exact absurd (List.cons.inj h).1 (fun hcd => hds (hcd ▸ List.mem_cons_self))
  | cons b cs ih =>
    cases ds with
    | nil => exact absurd (List.cons.inj h).1.symm (fun hcb => hcs (hcb ▸ List.mem_cons_self))
    | cons d ds =>
      obtain ⟨rfl, hlater⟩ := List.cons.inj h
      obtain ⟨rfl, rfl⟩ := ih (fun hmem => hcs (List.mem_cons_of_mem _ hmem))
        (fun hmem => hds (List.mem_cons_of_mem _ hmem)) hlater
      exact ⟨rfl, rfl⟩

end Acceptance.Text

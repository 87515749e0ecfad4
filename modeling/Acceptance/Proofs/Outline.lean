import Acceptance.Proofs.EmittedLines
import Acceptance.Proofs.QuotedSegments
/-!
Outlines. A text is made of marks, which are characters that are not blank and quoted literals, with
blanks before each of them and behind the last. Spacing keeps the marks, has one space for all blanks
between two of them and none at the ends.
-/
namespace Acceptance.Text

variable {gap cs s : List Char}

/-- What spacing keeps as it is: a character that is not blank, or a quoted literal. -/
inductive Mark
  | char (c : Char)
  | quoted (q : List Char)
  deriving DecidableEq, Repr

namespace Mark

variable {m : Mark}

def text : Mark → List Char
  | .char c => [c]
  | .quoted q => '"' :: (q ++ ['"'])

def quoted? : Mark → Option (List Char)
  | .char _ => none
  | .quoted q => some q

/-- The mark is the first of its text and what is behind it. A quote is a mark by itself only if it has
no partner there. -/
def Proper (behind : List Char) : Mark → Prop
  | .char c => isBlank c = false ∧ (c = '"' → '"' ∉ behind)
  | .quoted q => '"' ∉ q

theorem Proper.collapse (h : m.Proper cs) :
    collapse .plain (m.text ++ cs) = m.text ++ collapse .plain cs := by
  cases m with
  | char c =>
    by_cases hc : c = '"'
    · subst hc
      exact collapse_plain_lone (h.2 rfl)
    · exact collapse_plain_solid (isSolid_eq_true.2 ⟨h.1, hc⟩) cs
  | quoted q => simpa [text] using collapse_plain_quoted h cs

/-- A mark neither starts nor ends with a blank. -/
theorem Proper.trim (h : m.Proper cs) (before behind : List Char) :
    trimStart (m.text ++ behind) = m.text ++ behind ∧
      trimEnd (before ++ (m.text ++ behind)) = before ++ (m.text ++ trimEnd behind) := by
  have hend {c : Char} (hc : isBlank c = false) (ds : List Char) :
      trimEnd (ds ++ c :: behind) = ds ++ c :: trimEnd behind := by
    rw [trimEnd_append_of_ne_nil (by simp [trimEnd_cons hc]), trimEnd_cons hc]
  cases m with
  | char c => exact ⟨trimStart_cons h.1 _, hend h.1 before⟩
  | quoted q =>
    refine ⟨trimStart_cons (by decide) _, ?_⟩
    simpa [text] using hend (c := '"') (by decide) (before ++ '"' :: q)

end Mark

/-- The marks of a text, each with the blanks before it, and the blanks at the end. -/
inductive Outline
  | last (blanks : List Char)
  | next (gap : List Char) (m : Mark) (later : Outline)
  deriving DecidableEq, Repr

/-- A space for some blanks. -/
def oneSpace (gap : List Char) : List Char := if gap = [] then [] else [' ']

theorem isBlank_of_mem_oneSpace : ∀ c ∈ oneSpace gap, isBlank c = true := by
  unfold oneSpace
  split
  · exact List.forall_mem_nil _
  · exact List.forall_mem_singleton.2 (by decide)

theorem collapse_append_blanks (hgap : ∀ c ∈ gap, isBlank c = true) (hcs : trimStart cs = cs) :
    collapse .plain (gap ++ cs) = oneSpace gap ++ collapse .plain cs := by
  cases gap with
  | nil => rfl
  | cons c gap =>
    obtain ⟨hc, hgap⟩ := List.forall_mem_cons.1 hgap
    have hstart : trimStart (gap ++ cs) = trimStart cs := List.dropWhile_append_of_pos hgap
    rw [List.cons_append, collapse_plain_blank hc, hstart, hcs]
    rfl

namespace Outline

variable {o : Outline}

def text : Outline → List Char
  | last blanks => blanks
  | next gap m later => gap ++ (m.text ++ later.text)

def marks : Outline → List Mark
  | last _ => []
  | next _ m later => m :: later.marks

/-- All gaps are blank, and each mark is the first of what is left. -/
def Proper : Outline → Prop
  | last blanks => ∀ c ∈ blanks, isBlank c = true
  | next gap m later => (∀ c ∈ gap, isBlank c = true) ∧ m.Proper later.text ∧ later.Proper

/-- Single spaces for all blanks, and `tail` for those at the end. -/
def tight (tail : List Char → List Char) : Outline → Outline
  | last blanks => last (tail blanks)
  | next gap m later => next (oneSpace gap) m (later.tight tail)

/-- Single spaces between the marks. -/
def spaced : Outline → Outline
  | last _ => last []
  | next _ m later => next [] m (later.tight fun _ => [])

/-- The outline with more blanks in front. -/
def behind (blanks : List Char) : Outline → Outline
  | last more => last (blanks ++ more)
  | next gap m later => next (blanks ++ gap) m later

theorem exists_text_eq (cs : List Char) : ∃ o : Outline, o.Proper ∧ o.text = cs := by
  induction cs using spacing_induction with
  | nil => exact ⟨last [], List.forall_mem_nil _, rfl⟩
  | blank c cs hc ih =>
    obtain ⟨o, ho, htext⟩ := ih
    have hblanks : ∀ d ∈ c :: cs.takeWhile isBlank, isBlank d = true :=
      List.forall_mem_cons.2 ⟨hc, fun d hd => List.mem_takeWhile_imp hd⟩
    have hsplit : c :: cs = c :: cs.takeWhile isBlank ++ o.text := by
      rw [htext, List.cons_append, trimStart, List.takeWhile_append_dropWhile]
    rw [hsplit]
    refine ⟨o.behind (c :: cs.takeWhile isBlank), ?_⟩
    cases o with
    | last more => exact ⟨List.forall_mem_append.2 ⟨hblanks, ho⟩, rfl⟩
    | next gap m later =>
      exact ⟨⟨List.forall_mem_append.2 ⟨hblanks, ho.1⟩, ho.2⟩, List.append_assoc ..⟩
  | solid c cs hc ih =>
    obtain ⟨o, ho, rfl⟩ := ih
    obtain ⟨hblank, hquote⟩ := isSolid_eq_true.1 hc
    exact ⟨next [] (.char c) o, ⟨List.forall_mem_nil _, ⟨hblank, fun h => absurd h hquote⟩, ho⟩, rfl⟩
  | quoted q cs hq ih =>
    obtain ⟨o, ho, rfl⟩ := ih
    exact ⟨next [] (.quoted q) o, ⟨List.forall_mem_nil _, hq, ho⟩, by simp [text, Mark.text]⟩
  | lone cs hcs ih =>
    obtain ⟨o, ho, rfl⟩ := ih
    exact ⟨next [] (.char '"') o, ⟨List.forall_mem_nil _, ⟨by decide, fun _ => hcs⟩, ho⟩, rfl⟩

/-! Spacing. -/

theorem collapse_text (h : o.Proper) : collapse .plain o.text = (o.tight oneSpace).text := by
  induction o with
  | last blanks =>
    have hend : trimStart [] = [] := rfl
    simpa [text, tight, collapse] using collapse_append_blanks h hend
  | next gap m later ih =>
    obtain ⟨hgap, hm, hlater⟩ := h
    rw [text, collapse_append_blanks hgap (hm.trim [] _).1, hm.collapse, ih hlater]
    rfl

theorem trimEnd_text (h : o.Proper) :
    trimEnd (o.tight oneSpace).text = (o.tight fun _ => []).text := by
  induction o with
  | last blanks => exact (trimEnd_append_blanks isBlank_of_mem_oneSpace []).trans rfl
  | next gap m later ih =>
    obtain ⟨-, hm, hlater⟩ := h
    rw [tight, text, (hm.trim _ _).2, ih hlater]
    rfl

theorem respace_text (h : o.Proper) : respace o.text = o.spaced.text := by
  rw [respace, collapse_text h, trim]
  cases o with
  | last blanks =>
    have hblank : trimStart (oneSpace blanks) = [] :=
      List.dropWhile_eq_nil_iff.2 isBlank_of_mem_oneSpace
    rw [tight, text, hblank]
    rfl
  | next gap m later =>
    obtain ⟨-, hm, hlater⟩ := h
    have hstart : trimStart (oneSpace gap ++ (m.text ++ (later.tight oneSpace).text)) = _ :=
      (List.dropWhile_append_of_pos isBlank_of_mem_oneSpace).trans (hm.trim [] _).1
    have hend := (hm.trim [] (later.tight oneSpace).text).2
    rw [tight, text, hstart]
    rw [trimEnd_text hlater] at hend
    exact hend

theorem quote_not_mem_tight (h : '"' ∉ o.text) : '"' ∉ (o.tight fun _ => []).text := by
  induction o with
  | last blanks => exact List.not_mem_nil
  | next gap m later ih =>
    simp only [text, tight, List.mem_append, not_or] at h ⊢
    exact ⟨quote_not_mem_of_blank isBlank_of_mem_oneSpace, h.2.1, ih h.2.2⟩

theorem Proper.tight (h : o.Proper) : (o.tight fun _ => []).Proper := by
  induction o with
  | last blanks => exact List.forall_mem_nil _
  | next gap m later ih =>
    obtain ⟨-, hm, hlater⟩ := h
    refine ⟨isBlank_of_mem_oneSpace, ?_, ih hlater⟩
    cases m with
    | char c => exact ⟨hm.1, fun hc => quote_not_mem_tight (hm.2 hc)⟩
    | quoted q => exact hm

theorem Proper.spaced (h : o.Proper) : o.spaced.Proper := by
  cases o with
  | last blanks => exact List.forall_mem_nil _
  | next gap m later => exact ⟨List.forall_mem_nil _, h.tight.2⟩

theorem marks_spaced (o : Outline) : o.spaced.marks = o.marks := by
  have htight (o : Outline) : (o.tight fun _ => []).marks = o.marks := by
    induction o with
    | last blanks => rfl
    | next gap m later ih => exact congrArg (m :: ·) ih
  cases o with
  | last blanks => rfl
  | next gap m later => exact congrArg (m :: ·) (htight later)

/-! What an outline tells of its text. -/

theorem filter_text (h : o.Proper) :
    o.text.filter (!isBlank ·) = o.marks.flatMap (·.text.filter (!isBlank ·)) := by
  have hblank {bs : List Char} (hbs : ∀ c ∈ bs, isBlank c = true) : bs.filter (!isBlank ·) = [] :=
    List.filter_eq_nil_iff.2 fun c hc => by simp [hbs c hc]
  induction o with
  | last blanks => exact hblank h
  | next gap m later ih =>
    rw [text, List.filter_append, List.filter_append, hblank h.1, ih h.2.2]
    rfl

end Outline

/-- Of the segments between quotes those that have a quote on both sides, paired from the left. -/
def quotedTexts : List (List Char) → List (List Char)
  | _ :: q :: s :: rest => q :: quotedTexts (s :: rest)
  | _ => []

theorem quotedTexts_append (hs : '"' ∉ s) (cs : List Char) :
    quotedTexts (splitAt '"' (s ++ cs)) = quotedTexts (splitAt '"' cs) := by
  by_cases hcs : '"' ∈ cs
  · obtain ⟨a, b, rfl, ha⟩ := List.eq_append_cons_of_mem hcs
    rw [← List.append_assoc, splitAt_append (by simp [hs, ha]), splitAt_append ha]
    rcases splitAt '"' b with _ | ⟨x, _ | ⟨y, zs⟩⟩ <;> rfl
  · rw [splitAt_of_not_mem (by simp [hs, hcs]), splitAt_of_not_mem hcs]
    rfl

theorem Outline.quotedTexts_text {o : Outline} (h : o.Proper) :
    quotedTexts (splitAt '"' o.text) = o.marks.filterMap (·.quoted?) := by
  induction o with
  | last blanks =>
    rw [text, splitAt_of_not_mem (quote_not_mem_of_blank h)]
    rfl
  | next gap m later ih =>
    obtain ⟨hgap, hm, hlater⟩ := h
    rw [text, quotedTexts_append (quote_not_mem_of_blank hgap)]
    specialize ih hlater
    cases m with
    | char c =>
      by_cases hc : c = '"'
      · subst hc
        rw [splitAt_of_not_mem (hm.2 rfl)] at ih
        have hsplit : splitAt '"' ('"' :: later.text) = [[], later.text] := by
          rw [splitAt, if_pos rfl, splitAt_of_not_mem (hm.2 rfl)]
        exact (congrArg quotedTexts hsplit).trans ih
      · exact (quotedTexts_append (by simpa [Mark.text] using Ne.symm hc) _).trans ih
    | quoted q =>
      have hsplit : splitAt '"' ((Mark.quoted q).text ++ later.text) =
          [] :: q :: splitAt '"' later.text := by
        rw [Mark.text, List.cons_append, List.append_assoc, splitAt, if_pos rfl]
        exact congrArg ([] :: ·) (splitAt_append hm _)
      rw [hsplit]
      cases hlater : splitAt '"' later.text with
      | nil => exact absurd (cons_eq_flatMap_splitAt '"' later.text) (by simp [hlater])
      | cons s rest =>
        rw [hlater] at ih
        exact congrArg (q :: ·) ih

/-- Spacing is a projection that keeps quoted literals and all that is not blank. A text and its spaced
form have the same outline, but for the blanks: between two marks there is a space just if there were
blanks, and there are none at the ends. -/
theorem normalize_is_projection (t : String) :
    Text.normalize (Text.normalize t) = Text.normalize t ∧ Trimmed (Text.normalize t).toList ∧
    quotedTexts (splitAt '"' (Text.normalize t).toList) = quotedTexts (splitAt '"' t.toList) ∧
    (Text.normalize t).toList.filter (!isBlank ·) = t.toList.filter (!isBlank ·) ∧
    ∃ o : Outline, o.Proper ∧ o.text = t.toList ∧ o.spaced.Proper ∧
      o.spaced.text = (Text.normalize t).toList := by
  obtain ⟨o, ho, htext⟩ := Outline.exists_text_eq t.toList
  have hlist : (Text.normalize t).toList = respace t.toList := String.toList_ofList
  have hspaced : (Text.normalize t).toList = o.spaced.text := by
    rw [hlist, ← htext, Outline.respace_text ho]
  refine ⟨?_, hlist ▸ trimmed_respace _, ?_, ?_, o, ho, htext, ho.spaced, hspaced.symm⟩
  · rw [Text.normalize, hlist, respace_respace]
    rfl
  · rw [hspaced, ← htext, Outline.quotedTexts_text ho.spaced, Outline.quotedTexts_text ho,
      Outline.marks_spaced]
  · rw [hspaced, ← htext, Outline.filter_text ho.spaced, Outline.filter_text ho, Outline.marks_spaced]

end Acceptance.Text

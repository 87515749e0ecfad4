import Acceptance.Proofs.StepLines
import Acceptance.Text.Spacing
/-!
Spacing. Blanks at the front of a text, at its end and beside each other come to nothing, so a spaced
text is spaced as it is, and so is each part of it up to a place outside quotes.
-/
namespace Acceptance.Text

variable {r : Region} {c : Char} {cs ds q : List Char}

/-! Trimming. -/

theorem trimStart_cons_blank (hc : isBlank c = true) (cs : List Char) :
    trimStart (c :: cs) = trimStart cs := List.dropWhile_cons_of_pos hc

theorem trimStart_cons (hc : isBlank c = false) (cs : List Char) : trimStart (c :: cs) = c :: cs :=
  List.dropWhile_cons_of_neg (by simp [hc])

theorem trimStart_trimStart (cs : List Char) : trimStart (trimStart cs) = trimStart cs :=
  List.dropWhile_idempotent isBlank cs

theorem trimEnd_append_blanks (hds : ∀ d ∈ ds, isBlank d = true) (cs : List Char) :
    trimEnd (cs ++ ds) = trimEnd cs := by
  induction ds using List.reverseRecOn with
  | nil => rw [List.append_nil]
  | append_singleton ds d ih =>
    obtain ⟨hds, hd⟩ := List.forall_mem_append.1 hds
    rw [← List.append_assoc, trimEnd_append_blank (hd d (List.mem_singleton_self d)), ih hds]

theorem trimStart_append_of_ne_nil (h : trimStart cs ≠ []) (ds : List Char) :
    trimStart (cs ++ ds) = trimStart cs ++ ds := by
  unfold trimStart at h ⊢
  rw [List.dropWhile_append, if_neg (by simpa using h)]

/-- Trimming at the end does not reach past what is not blank. -/
theorem trimEnd_append_of_ne_nil (h : trimEnd cs ≠ []) (ds : List Char) :
    trimEnd (ds ++ cs) = ds ++ trimEnd cs := by
  obtain ⟨bs, hcs, hbs⟩ := exists_append_of_trimEnd cs
  have hstop : trimEnd (trimEnd cs) = trimEnd cs := List.rdropWhile_idempotent isBlank cs
  calc trimEnd (ds ++ cs) = trimEnd (ds ++ trimEnd cs ++ bs) := by rw [List.append_assoc, ← hcs]
    _ = trimEnd (ds ++ trimEnd cs) := trimEnd_append_blanks hbs _
    _ = ds ++ trimEnd cs := trimEnd_append hstop h

theorem trimEnd_cons (hc : isBlank c = false) (cs : List Char) :
    trimEnd (c :: cs) = c :: trimEnd cs := by
  by_cases h : trimEnd cs = []
  · have hblank : ∀ d ∈ cs, isBlank d = true := by
      rwa [trimEnd_eq_rdropWhile, List.rdropWhile_eq_nil_iff] at h
    rw [h, ← List.singleton_append, trimEnd_append_blanks hblank]
    exact (trimEnd_append_singleton hc : trimEnd ([] ++ [c]) = [] ++ [c])
  · exact trimEnd_append_of_ne_nil h [c]

/-! Texts outside quotes. -/

/-- A character that spacing does not look at. -/
def isSolid (c : Char) : Bool := !isBlank c && c ≠ '"'

theorem isSolid_eq_true : isSolid c = true ↔ isBlank c = false ∧ c ≠ '"' := by
  simp [isSolid]

/-- What spacing looks at: blanks and quotes, by their code points. -/
def spacingPoints : List Nat :=
  [9, 10, 11, 12, 13, 28, 29, 30, 31, 32, 34, 0x85, 0xa0, 0x1680, 0x2000, 0x2001, 0x2002, 0x2003,
   0x2004, 0x2005, 0x2006, 0x2007, 0x2008, 0x2009, 0x200a, 0x2028, 0x2029, 0x202f, 0x205f, 0x3000]

theorem isSolid_of_not_mem (h : c.toNat ∉ spacingPoints) : isSolid c = true := by
  rw [isSolid_eq_true]
  constructor
  · by_contra hc
    simp only [Bool.not_eq_false, isBlank, Bool.or_eq_true, Bool.and_eq_true, decide_eq_true_eq,
      beq_iff_eq] at hc
    simp only [spacingPoints, List.mem_cons, List.not_mem_nil, or_false] at h
    omega
  · rintro rfl
    exact h (by decide)

theorem isSolid_of_isWordChar (h : isWordChar c = true) : isSolid c = true := by
  refine isSolid_of_not_mem fun hmem => ?_
  have hall : ∀ n ∈ spacingPoints, inRuns false wordRuns n = false := by decide +kernel
  exact absurd (h.symm.trans (hall _ hmem)) (by decide)

theorem isSolid_of_isDigit (h : isDigit c = true) : isSolid c = true := by
  refine isSolid_of_not_mem fun hmem => ?_
  have hall : ∀ n ∈ spacingPoints, (digitZeros.find? fun z => z ≤ n && n < z + 10) = none := by
    decide +kernel
  rw [isDigit, digitValue?, hall _ hmem] at h
  cases h

theorem toNat_of_isNameChar (h : Spec.isNameChar c = true) : 48 ≤ c.toNat ∧ c.toNat ≤ 122 := by
  simp only [Spec.isNameChar, Spec.isLetter, Bool.or_eq_true, Bool.and_eq_true, decide_eq_true_eq,
    beq_iff_eq] at h
  rcases h with ((⟨hl, hh⟩ | ⟨hl, hh⟩) | ⟨hl, hh⟩) | rfl
  · exact ⟨Nat.le_trans (by decide) hl, hh⟩
  · exact ⟨Nat.le_trans (by decide) hl, Nat.le_trans hh (by decide)⟩
  · exact ⟨hl, Nat.le_trans hh (by decide)⟩
  · decide

theorem isSolid_of_isNameChar (h : Spec.isNameChar c = true) : isSolid c = true := by
  refine isSolid_of_not_mem fun hmem => ?_
  have hrange := toNat_of_isNameChar h
  simp only [spacingPoints, List.mem_cons, List.not_mem_nil, or_false] at hmem
  omega

theorem length_trimStart_le (cs : List Char) : (trimStart cs).length ≤ cs.length :=
  (List.dropWhile_suffix isBlank).length_le

/-- A text starts with blanks, a character that spacing does not look at, a quoted literal or a quote
without a partner. What holds of it follows from what holds of the text behind. -/
@[elab_as_elim]
theorem spacing_induction {motive : List Char → Prop} (nil : motive [])
    (blank : ∀ c cs, isBlank c = true → motive (trimStart cs) → motive (c :: cs))
    (solid : ∀ c cs, isSolid c = true → motive cs → motive (c :: cs))
    (quoted : ∀ q cs, '"' ∉ q → motive cs → motive ('"' :: (q ++ '"' :: cs)))
    (lone : ∀ cs, '"' ∉ cs → motive cs → motive ('"' :: cs)) (cs : List Char) : motive cs := by
  induction h : cs.length using Nat.strong_induction_on generalizing cs with
  | h n ih =>
    subst h
    cases cs with
    | nil => exact nil
    | cons c cs =>
      have hshort : cs.length < (c :: cs).length := Nat.lt_succ_self _
      by_cases hquote : c = '"'
      · subst hquote
        by_cases hin : '"' ∈ cs
        · obtain ⟨q, rest, rfl, hq⟩ := List.eq_append_cons_of_mem hin
          exact quoted q rest hq (ih _ (by simp; omega) rest rfl)
        · exact lone cs hin (ih _ hshort cs rfl)
      · cases hc : isBlank c with
        | true =>
          exact blank c cs hc (ih _ (Nat.lt_succ_of_le (length_trimStart_le cs)) _ rfl)
        | false => exact solid c cs (isSolid_eq_true.2 ⟨hc, hquote⟩) (ih _ hshort cs rfl)

/-! Collapsing. -/

theorem collapse_blank (hc : isBlank c = true) (cs : List Char) :
    collapse .plain (c :: cs) = ' ' :: collapse .gap cs ∧
      collapse .gap (c :: cs) = collapse .gap cs := by
  have hquote : c ≠ '"' := by
    rintro rfl
    exact absurd hc (by decide)
  rw [collapse, collapse, if_neg hquote, if_neg hquote, if_pos hc, if_pos hc]
  exact ⟨rfl, rfl⟩

/-- Behind a gap all blanks are passed over. -/
theorem collapse_gap (cs : List Char) : collapse .gap cs = collapse .plain (trimStart cs) := by
  induction cs with
  | nil => rfl
  | cons c cs ih =>
    cases hc : isBlank c with
    | true => rw [(collapse_blank hc cs).2, ih, trimStart_cons_blank hc]
    | false =>
      rw [trimStart_cons hc]
      simp [collapse, hc]

theorem collapse_plain_blank (hc : isBlank c = true) (cs : List Char) :
    collapse .plain (c :: cs) = ' ' :: collapse .plain (trimStart cs) := by
  rw [(collapse_blank hc cs).1, collapse_gap]

theorem collapse_plain_solid (hc : isSolid c = true) (cs : List Char) :
    collapse .plain (c :: cs) = c :: collapse .plain cs := by
  obtain ⟨hblank, hquote⟩ := isSolid_eq_true.1 hc
  rw [collapse, if_neg hquote, if_neg (by simp [hblank])]

theorem collapse_plain_lone (h : '"' ∉ cs) :
    collapse .plain ('"' :: cs) = '"' :: collapse .plain cs := by
  rw [collapse, if_pos rfl, if_neg h]

/-- What is quoted stays as it is. -/
theorem collapse_plain_quoted (hq : '"' ∉ q) (cs : List Char) :
    collapse .plain ('"' :: (q ++ '"' :: cs)) = '"' :: (q ++ '"' :: collapse .plain cs) := by
  have hquoted : collapse .quoted (q ++ '"' :: cs) = q ++ '"' :: collapse .plain cs := by
    induction q with
    | nil => rfl
    | cons c q ih =>
      obtain ⟨hc, hq⟩ := not_or.1 (mt List.mem_cons.2 hq)
      rw [List.cons_append, collapse, if_neg (Ne.symm hc), ih hq, List.cons_append]
  rw [collapse, if_pos rfl, if_pos (by simp), hquoted]

theorem collapse_trimStart (cs : List Char) :
    collapse .plain (trimStart cs) = trimStart (collapse .plain cs) := by
  induction cs using spacing_induction with
  | nil => rfl
  | blank c cs hc ih =>
    rw [collapse_plain_blank hc, trimStart_cons_blank hc, trimStart_cons_blank (by decide), ← ih,
      trimStart_trimStart]
  | solid c cs hc ih =>
    have hblank := (isSolid_eq_true.1 hc).1
    rw [trimStart_cons hblank, collapse_plain_solid hc, trimStart_cons hblank]
  | quoted q cs hq ih =>
    rw [trimStart_cons (by decide), collapse_plain_quoted hq, trimStart_cons (by decide)]
  | lone cs hcs ih =>
    rw [trimStart_cons (by decide), collapse_plain_lone hcs, trimStart_cons (by decide)]

/-- A step keeps the character, or passes over a blank, with a space in its place outside a gap. -/
theorem collapse_cons (r : Region) (c : Char) (cs : List Char) :
    (∃ r', r' ≠ .gap ∧ collapse r (c :: cs) = c :: collapse r' cs) ∨ isBlank c = true ∧
      (collapse r (c :: cs) = ' ' :: collapse .gap cs ∨
        r = .gap ∧ collapse r (c :: cs) = collapse .gap cs) := by
  cases r <;> rw [collapse]
  · split_ifs with hquote hin hblank
    · exact .inl ⟨.quoted, by decide, rfl⟩
    · exact .inl ⟨.plain, by decide, rfl⟩
    · exact .inr ⟨hblank, .inl rfl⟩
    · exact .inl ⟨.plain, by decide, rfl⟩
  · split_ifs with hquote hin hblank
    · exact .inl ⟨.quoted, by decide, rfl⟩
    · exact .inl ⟨.plain, by decide, rfl⟩
    · exact .inr ⟨hblank, .inr ⟨rfl, rfl⟩⟩
    · exact .inl ⟨.plain, by decide, rfl⟩
  · exact .inl ⟨_, by split <;> decide, rfl⟩

theorem mem_of_mem_collapse (h : c ∈ collapse r cs) : c ∈ cs ∨ c = ' ' := by
  induction cs generalizing r with
  | nil => cases r <;> cases h
  | cons d cs ih =>
    have hlater {r' : Region} (h : c ∈ collapse r' cs) : c ∈ d :: cs ∨ c = ' ' :=
      (ih h).imp_left (List.mem_cons_of_mem d)
    rcases collapse_cons r d cs with ⟨r', -, hr⟩ | ⟨-, hr | ⟨-, hr⟩⟩ <;> rw [hr] at h
    · rcases List.mem_cons.1 h with rfl | h
      · exact .inl List.mem_cons_self
      · exact hlater h
    · exact (List.mem_cons.1 h).elim .inr hlater
    · exact hlater h

theorem mem_collapse_of_mem (h : c ∈ cs) (hc : isBlank c = false) : c ∈ collapse r cs := by
  induction cs generalizing r with
  | nil => cases h
  | cons d cs ih =>
    rcases collapse_cons r d cs with ⟨r', -, hr⟩ | ⟨hd, hr⟩
    · rw [hr]
      exact List.mem_cons.2 ((List.mem_cons.1 h).imp_right ih)
    · have hmem : c ∈ cs := (List.mem_cons.1 h).resolve_left fun hcd =>
        absurd (hd.symm.trans (hcd ▸ hc)) (by decide)
      rcases hr with hr | ⟨-, hr⟩ <;> rw [hr]
      · exact List.mem_cons_of_mem ' ' (ih hmem)
      · exact ih hmem

theorem quote_mem_collapse : '"' ∈ collapse r cs ↔ '"' ∈ cs := by
  refine ⟨fun h => ?_, fun h => mem_collapse_of_mem h (by decide)⟩
  exact (mem_of_mem_collapse h).resolve_right (by decide)

theorem collapse_collapse (cs : List Char) :
    collapse .plain (collapse .plain cs) = collapse .plain cs := by
  induction cs using spacing_induction with
  | nil => rfl
  | blank c cs hc ih =>
    rw [collapse_plain_blank hc, collapse_plain_blank (by decide), ← collapse_trimStart,
      trimStart_trimStart, ih]
  | solid c cs hc ih => rw [collapse_plain_solid hc, collapse_plain_solid hc, ih]
  | quoted q cs hq ih => rw [collapse_plain_quoted hq, collapse_plain_quoted hq, ih]
  | lone cs hcs ih =>
    rw [collapse_plain_lone hcs, collapse_plain_lone (mt quote_mem_collapse.1 hcs), ih]

/-- What is put behind a text and has no quotes leaves the text before as it is. -/
theorem collapse_append (hds : '"' ∉ ds) (cs : List Char) :
    ∃ r, collapse .plain (cs ++ ds) = collapse .plain cs ++ collapse r ds := by
  induction cs using spacing_induction with
  | nil => exact ⟨.plain, rfl⟩
  | blank c cs hc ih =>
    obtain ⟨r, hr⟩ := ih
    rw [List.cons_append, collapse_plain_blank hc, collapse_plain_blank hc]
    -- With only blanks left, the appended text is read from inside the gap they open.
    by_cases hcs : trimStart cs = []
    · refine ⟨.gap, ?_⟩
      have hblank : ∀ d ∈ cs, isBlank d = true := List.dropWhile_eq_nil_iff.1 hcs
      have hstart : trimStart (cs ++ ds) = trimStart ds := List.dropWhile_append_of_pos hblank
      rw [hstart, hcs, collapse_gap]
      rfl
    · exact ⟨r, by rw [trimStart_append_of_ne_nil hcs, hr, List.cons_append]⟩
  | solid c cs hc ih =>
    obtain ⟨r, hr⟩ := ih
    exact ⟨r, by rw [List.cons_append, collapse_plain_solid hc, collapse_plain_solid hc, hr]; rfl⟩
  | quoted q cs hq ih =>
    obtain ⟨r, hr⟩ := ih
    refine ⟨r, ?_⟩
    rw [collapse_plain_quoted hq, List.cons_append, List.append_assoc, List.cons_append,
      collapse_plain_quoted hq, hr, List.cons_append, List.append_assoc, List.cons_append]
  | lone cs hcs ih =>
    obtain ⟨r, hr⟩ := ih
    refine ⟨r, ?_⟩
    rw [List.cons_append, collapse_plain_lone (by simp [hcs, hds]), hr, collapse_plain_lone hcs]
    rfl

theorem length_collapse_le (r : Region) (cs : List Char) : (collapse r cs).length ≤ cs.length := by
  induction cs generalizing r with
  | nil => cases r <;> exact Nat.le_refl _
  | cons c cs ih =>
    rcases collapse_cons r c cs with ⟨r', -, hr⟩ | ⟨-, hr | ⟨-, hr⟩⟩ <;> rw [hr]
    · exact Nat.succ_le_succ (ih _)
    · exact Nat.succ_le_succ (ih _)
    · exact Nat.le_succ_of_le (ih _)

/-- A part of a spaced text has its spaces as they are, if what is behind it has no quotes. -/
theorem collapse_of_append (hds : '"' ∉ ds) (h : collapse .plain (cs ++ ds) = cs ++ ds) :
    collapse .plain cs = cs := by
  obtain ⟨r, hr⟩ := collapse_append hds cs
  rw [h] at hr
  have hlength := congrArg List.length hr
  have hcs := length_collapse_le .plain cs
  have hle := length_collapse_le r ds
  simp only [List.length_append] at hlength
  exact (List.append_inj hr (by omega)).1.symm

/-! Spacing. -/

theorem quote_not_mem_of_blank (h : ∀ c ∈ cs, isBlank c = true) : '"' ∉ cs :=
  fun hmem => absurd (h _ hmem) (by decide)

theorem collapse_respace (cs : List Char) : collapse .plain (respace cs) = respace cs := by
  have hstart : collapse .plain (trimStart (collapse .plain cs)) = trimStart (collapse .plain cs) := by
    rw [collapse_trimStart, collapse_collapse]
  obtain ⟨bs, hsplit, hbs⟩ := exists_append_of_trimEnd (trimStart (collapse .plain cs))
  rw [hsplit] at hstart
  exact collapse_of_append (quote_not_mem_of_blank hbs) hstart

theorem trimmed_respace (cs : List Char) : Trimmed (respace cs) := trimmed_trim _

theorem respace_respace (cs : List Char) : respace (respace cs) = respace cs := by
  rw [respace, collapse_respace, (trimmed_respace cs).trim]

theorem respace_of_append (hds : '"' ∉ ds) (h : respace (cs ++ ds) = cs ++ ds)
    (hcs : trimEnd cs = cs) : respace cs = cs := by
  have hcollapse := collapse_respace (cs ++ ds)
  have htrimmed := trimmed_respace (cs ++ ds)
  rw [h] at hcollapse htrimmed
  have hstart := trimStart_of_isPrefix htrimmed.start (List.prefix_append cs ds)
  rw [respace, collapse_of_append hds hcollapse, (Trimmed.mk hstart hcs).trim]

theorem trim_append_blanks (hds : ∀ d ∈ ds, isBlank d = true) (cs : List Char) :
    trim (cs ++ ds) = trim cs := by
  by_cases hcs : trimStart cs = []
  · have hblank : ∀ c ∈ cs, isBlank c = true := List.dropWhile_eq_nil_iff.1 hcs
    rw [trim_eq_nil.2 hblank, trim_eq_nil.2 (List.forall_mem_append.2 ⟨hblank, hds⟩)]
  · rw [trim, trimStart_append_of_ne_nil hcs, trimEnd_append_blanks hds, trim]

/-- Blanks at the ends are of no account. -/
theorem respace_trim (cs : List Char) : respace (trim cs) = respace cs := by
  have hstart : respace (trimStart cs) = respace cs := by
    rw [respace, collapse_trimStart, trim, trimStart_trimStart]
    rfl
  obtain ⟨bs, hsplit, hbs⟩ := exists_append_of_trimEnd (trimStart cs)
  obtain ⟨r, hr⟩ := collapse_append (quote_not_mem_of_blank hbs) (trimEnd (trimStart cs))
  have hblank : ∀ c ∈ collapse r bs, isBlank c = true := by
    intro c hc
    rcases mem_of_mem_collapse hc with hc | rfl
    · exact hbs c hc
    · decide
  calc respace (trim cs) = trim (collapse .plain (trimEnd (trimStart cs)) ++ collapse r bs) :=
        (trim_append_blanks hblank _).symm
    _ = respace (trimStart cs) := by rw [← hr, ← hsplit, respace]
    _ = respace cs := hstart

end Acceptance.Text

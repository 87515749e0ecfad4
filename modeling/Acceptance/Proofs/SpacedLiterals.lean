import Acceptance.Proofs.Spacing
/-!
Literals in a changed text. No word and no number goes on past a blank or a quote, so it does not
matter to them what becomes of a text from there on. Spacing changes no literal and joins no words
either, so the same items stand in a text before and after it, in the same order.
-/
namespace Acceptance

namespace Text

variable {c : Char} {cs q : List Char} {p : Char → Bool} {f : List Char → List Char}

/-- A change of texts that keeps the characters from the front on, up to a place where a blank, a quote
or the end is both before and after it. -/
def KeepsFront (f : List Char → List Char) : Prop :=
  ∀ cs, (∃ c ds, cs = c :: ds ∧ f cs = c :: f ds) ∨
    (∀ c ∈ cs.head?, isSolid c = false) ∧ ∀ c ∈ (f cs).head?, isSolid c = false

theorem takeWhile_eq_nil (hp : ∀ c, p c = true → isSolid c = true)
    (h : ∀ c ∈ cs.head?, isSolid c = false) : cs.takeWhile p = [] ∧ cs.dropWhile p = cs := by
  cases cs with
  | nil => exact ⟨rfl, rfl⟩
  | cons c cs =>
    have hno : ¬p c = true := fun hc => absurd (hp c hc) (by simp [h c rfl])
    exact ⟨List.takeWhile_cons_of_neg hno, List.dropWhile_cons_of_neg hno⟩

/-- Runs of characters that spacing does not look at are the same before and after. -/
theorem KeepsFront.takeWhile (hf : KeepsFront f) (hp : ∀ c, p c = true → isSolid c = true)
    (cs : List Char) :
    (f cs).takeWhile p = cs.takeWhile p ∧ (f cs).dropWhile p = f (cs.dropWhile p) := by
  induction cs with
  | nil =>
    rcases hf [] with ⟨c, ds, hcs, -⟩ | ⟨-, hhead⟩
    · cases hcs
    · exact takeWhile_eq_nil hp hhead
  | cons c cs ih =>
    rcases hf (c :: cs) with ⟨d, ds, hcs, hfront⟩ | ⟨hbefore, hafter⟩
    · cases hcs
      rw [hfront]
      cases hc : p c with
      | true => simp only [List.takeWhile_cons, List.dropWhile_cons, hc, if_true, ih, and_self]
      | false => simp [hc, hfront]
    · obtain ⟨htake, hdrop⟩ := takeWhile_eq_nil hp hbefore
      rw [htake, hdrop]
      exact takeWhile_eq_nil hp hafter

/-- The text with single spaces outside quotes and no blanks at its end. -/
def tighten (cs : List Char) : List Char := trimEnd (collapse .plain cs)

theorem respace_eq_tighten (cs : List Char) : respace cs = tighten (trimStart cs) := by
  rw [respace, trim, tighten, collapse_trimStart]

theorem tighten_blank (hc : isBlank c = true) (cs : List Char) :
    tighten (c :: cs) = [] ∧ tighten (trimStart cs) = [] ∨
      tighten (c :: cs) = ' ' :: tighten (trimStart cs) := by
  rw [tighten, collapse_plain_blank hc, tighten]
  by_cases h : trimEnd (collapse .plain (trimStart cs)) = []
  · refine .inl ⟨?_, h⟩
    rw [trimEnd_eq_rdropWhile, List.rdropWhile_eq_nil_iff] at h ⊢
    exact List.forall_mem_cons.2 ⟨by decide, h⟩
  · exact .inr (trimEnd_append_of_ne_nil h [' '])

theorem tighten_solid (hc : isSolid c = true) (cs : List Char) :
    tighten (c :: cs) = c :: tighten cs := by
  rw [tighten, collapse_plain_solid hc, trimEnd_cons (isSolid_eq_true.1 hc).1, tighten]

theorem tighten_lone (h : '"' ∉ cs) : tighten ('"' :: cs) = '"' :: tighten cs := by
  rw [tighten, collapse_plain_lone h, trimEnd_cons (by decide), tighten]

theorem tighten_quoted (hq : '"' ∉ q) (cs : List Char) :
    tighten ('"' :: (q ++ '"' :: cs)) = '"' :: (q ++ '"' :: tighten cs) := by
  have hclose : trimEnd ('"' :: collapse .plain cs) = '"' :: tighten cs := trimEnd_cons (by decide) _
  rw [tighten, collapse_plain_quoted hq, trimEnd_cons (by decide),
    trimEnd_append_of_ne_nil (by rw [hclose]; simp), hclose]

theorem trimStart_tighten (cs : List Char) : trimStart (tighten cs) = tighten (trimStart cs) := by
  induction cs using spacing_induction with
  | nil => rfl
  | blank c cs hc ih =>
    rw [trimStart_trimStart] at ih
    rw [trimStart_cons_blank hc]
    rcases tighten_blank hc cs with ⟨h, hrest⟩ | h
    · rw [h, hrest]
      rfl
    · rw [h, trimStart_cons_blank (by decide), ih]
  | solid c cs hc ih =>
    have hsolid := (isSolid_eq_true.1 hc).1
    rw [tighten_solid hc, trimStart_cons hsolid, trimStart_cons hsolid, tighten_solid hc]
  | quoted q cs hq ih =>
    rw [tighten_quoted hq, trimStart_cons (by decide), trimStart_cons (by decide), tighten_quoted hq]
  | lone cs hcs ih =>
    rw [tighten_lone hcs, trimStart_cons (by decide), trimStart_cons (by decide), tighten_lone hcs]

theorem keepsFront_tighten : KeepsFront tighten := by
  intro cs
  induction cs using spacing_induction with
  | nil => exact .inr ⟨by simp, by simp [tighten, collapse, trimEnd]⟩
  | blank c cs hc ih =>
    right
    have hno : isSolid c = false := by simp [isSolid, hc]
    have hspace : isSolid ' ' = false := by decide
    rcases tighten_blank hc cs with ⟨h, -⟩ | h <;> simp [h, hno, hspace]
  | solid c cs hc ih => exact .inl ⟨c, cs, rfl, tighten_solid hc cs⟩
  | quoted q cs hq ih => exact .inr ⟨by simp [isSolid], by simp [tighten_quoted hq, isSolid]⟩
  | lone cs hcs ih => exact .inl ⟨_, cs, rfl, tighten_lone hcs⟩

end Text

namespace Numeral

open Text

variable {f : List Char → List Char}

theorem takeFraction_of_keepsFront (hf : KeepsFront f) (cs : List Char) :
    takeFraction (f cs) = ((takeFraction cs).1, f (takeFraction cs).2) := by
  have hother {ds : List Char} (h : ds.head? ≠ some '.') : takeFraction ds = (none, ds) := by
    unfold takeFraction
    split
    · simp at h
    · rfl
  rcases hf cs with ⟨c, ds, rfl, hfront⟩ | ⟨hbefore, hafter⟩
  · by_cases hc : c = '.'
    · subst hc
      obtain ⟨htake, hdrop⟩ := hf.takeWhile (fun _ => isSolid_of_isDigit) ds
      rw [hfront, takeFraction, takeFraction, htake, hdrop]
      split
      · rw [hfront]
      · rfl
    · rw [hfront, hother (by simpa using hc), hother (by simpa using hc), hfront]
  · have hpoint : isSolid '.' = true := by decide
    rw [hother fun h => absurd (hafter _ h) (by simp [hpoint]),
      hother fun h => absurd (hbefore _ h) (by simp [hpoint])]

theorem takeUnsigned?_of_keepsFront (hf : KeepsFront f) (negative : Bool) (cs : List Char) :
    takeUnsigned? negative (f cs) =
      (takeUnsigned? negative cs).map fun found => (found.1, f found.2) := by
  obtain ⟨htake, hdrop⟩ := hf.takeWhile (fun _ => isSolid_of_isDigit) cs
  rw [takeUnsigned?, takeUnsigned?, htake, hdrop, takeFraction_of_keepsFront hf]
  split <;> rfl

theorem take?_of_keepsFront (hf : KeepsFront f) (cs : List Char) :
    take? (f cs) = (take? cs).map fun found => (found.1, f found.2) := by
  have hother {ds : List Char} (h : ds.head? ≠ some '-') : take? ds = takeUnsigned? false ds := by
    unfold take?
    split
    · simp at h
    · rfl
  rcases hf cs with ⟨c, ds, rfl, hfront⟩ | ⟨hbefore, hafter⟩
  · by_cases hc : c = '-'
    · subst hc
      rw [hfront, take?, take?, takeUnsigned?_of_keepsFront hf]
    · rw [hother (by rw [hfront]; simpa using hc), hother (by simpa using hc),
        takeUnsigned?_of_keepsFront hf]
  · have hminus : isSolid '-' = true := by decide
    rw [hother fun h => absurd (hafter _ h) (by simp [hminus]),
      hother fun h => absurd (hbefore _ h) (by simp [hminus]), takeUnsigned?_of_keepsFront hf]

end Numeral

namespace Spec

open Text

variable {f : List Char → List Char}

theorem startsWith_of_keepsFront (hf : KeepsFront f) (cs : List Char) :
    startsWithWordChar (f cs) = startsWithWordChar cs ∧
      startsWithPoint (f cs) = startsWithPoint cs := by
  have hword {ds : List Char} (h : ∀ c ∈ ds.head?, isSolid c = false) :
      startsWithWordChar ds = false := by
    cases ds with
    | nil => rfl
    | cons c ds =>
      by_contra hc
      exact absurd (isSolid_of_isWordChar (eq_true_of_ne_false hc)) (by simp [h c rfl])
  have hpoint {ds : List Char} (h : ∀ c ∈ ds.head?, isSolid c = false) :
      startsWithPoint ds = false := by
    unfold startsWithPoint
    split
    · exact absurd (h '.' rfl) (by decide)
    · rfl
  rcases hf cs with ⟨c, ds, rfl, hfront⟩ | ⟨hbefore, hafter⟩
  · rw [hfront]
    refine ⟨rfl, ?_⟩
    unfold startsWithPoint
    split <;> split <;> simp_all
  · rw [hword hbefore, hword hafter, hpoint hbefore, hpoint hafter]
    exact ⟨rfl, rfl⟩

theorem numberItem?_of_keepsFront (hf : KeepsFront f) (edge : Edge) (cs : List Char) :
    numberItem? edge (f cs) = (numberItem? edge cs).map fun found => (found.1, f found.2) := by
  cases edge with
  | free =>
    simp only [numberItem?, Numeral.take?_of_keepsFront hf]
    cases Numeral.take? cs with
    | none => rfl
    | some found =>
      obtain ⟨hword, hpoint⟩ := startsWith_of_keepsFront hf found.2
      simp only [Option.map_some, hword, hpoint]
      split <;> rfl
  | _ => rfl

/-- An item that is no quoted text is the same before and after. -/
theorem takeItem?_of_keepsFront (hf : KeepsFront f) (edge : Edge) {c : Char} {cs : List Char}
    (hc : c ≠ '"') (hfront : f (c :: cs) = c :: f cs) :
    takeItem? edge (f (c :: cs)) =
      (takeItem? edge (c :: cs)).map fun found => (found.1, found.2.1, f found.2.2) := by
  -- A name ends where the text may change, so the change shows in nothing but what is behind it.
  obtain ⟨htake, hdrop⟩ := hf.takeWhile (fun _ => isSolid_of_isNameChar) cs
  obtain ⟨hword, -⟩ := startsWith_of_keepsFront hf (cs.dropWhile isNameChar)
  have hnumber := numberItem?_of_keepsFront hf edge (c :: cs)
  rw [hfront] at hnumber ⊢
  simp only [takeItem?, if_neg hc, htake, hdrop, hnumber, wordItem, hword]
  split
  · rfl
  · cases numberItem? edge (c :: cs) <;> rfl

theorem quotedItem?_append {q : List Char} (hq : '"' ∉ q) (rest : List Char) :
    quotedItem? (q ++ '"' :: rest) = some (.quoted q, rest) := by
  have hrun : ∀ c ∈ q, decide (c ≠ '"') = true := by
    intro c hc
    exact decide_eq_true fun h => hq (h ▸ hc)
  rw [quotedItem?, if_pos (by simp), List.takeWhile_append_of_pos hrun,
    List.dropWhile_append_of_pos hrun]
  simp

theorem quotedItem?_of_not_mem {cs : List Char} (h : '"' ∉ cs) : quotedItem? cs = none := if_neg h

theorem takeItem?_tighten (edge : Edge) {cs : List Char} (h : ∀ c ∈ cs.head?, isBlank c = false) :
    takeItem? edge (tighten cs) =
      (takeItem? edge cs).map fun found => (found.1, found.2.1, tighten found.2.2) := by
  induction cs using spacing_induction with
  | nil => rfl
  | blank c cs hc ih => exact absurd (h c rfl) (by simp [hc])
  | solid c cs hc ih =>
    exact takeItem?_of_keepsFront keepsFront_tighten edge (isSolid_eq_true.1 hc).2 (tighten_solid hc cs)
  | quoted q cs hq ih =>
    rw [tighten_quoted hq, takeItem?, takeItem?, if_pos rfl, if_pos rfl, quotedItem?_append hq,
      quotedItem?_append hq]
    rfl
  | lone cs hcs ih =>
    have hno : '"' ∉ tighten cs := fun h =>
      hcs (quote_mem_collapse.1 ((trimEnd_isPrefix _).subset h))
    rw [tighten_lone hcs, takeItem?, takeItem?, if_pos rfl, if_pos rfl, quotedItem?_of_not_mem hcs,
      quotedItem?_of_not_mem hno]
    rfl

theorem takeItem?_blank {b : Char} (hb : isBlank b = true) (edge : Edge) (cs : List Char) :
    takeItem? edge (b :: cs) = none := by
  have hno {p : Char → Bool} (hp : p b = true → isSolid b = true) : p b = false := by
    by_contra h
    have hsolid := (isSolid_eq_true.1 (hp (eq_true_of_ne_false h))).1
    exact absurd (hsolid.symm.trans hb) (by decide)
  have hquote : b ≠ '"' := by
    rintro rfl
    exact absurd hb (by decide)
  have hminus : b ≠ '-' := by
    rintro rfl
    exact absurd hb (by decide)
  have hletter : isLetter b = false :=
    hno fun h => isSolid_of_isNameChar (by simp [isNameChar, h])
  have hnumber : Numeral.take? (b :: cs) = none := by
    rw [Numeral.take?, Numeral.takeUnsigned?]
    · simp [hno isSolid_of_isDigit]
    · rintro _ heq
      exact hminus (List.cons.inj heq).1
  rw [takeItem?, if_neg hquote, hletter]
  cases edge <;> simp [numberItem?, hnumber]

theorem after_blank {b : Char} (hb : isBlank b = true) : Edge.after b = .free := by
  have hword : isWordChar b = false := by
    by_contra h
    have hsolid := (isSolid_eq_true.1 (isSolid_of_isWordChar (eq_true_of_ne_false h))).1
    exact absurd (hsolid.symm.trans hb) (by decide)
  have hpoint : b ≠ '.' := by
    rintro rfl
    exact absurd hb (by decide)
  simp [Edge.after, hword, hpoint]

theorem items_of_some {edge edge' : Edge} {cs rest : List Char} {i : Item}
    (h : takeItem? edge cs = some (i, edge', rest)) : items edge cs = i :: items edge' rest := by
  rw [items]
  split
  · next hitem =>
    rw [h] at hitem
    cases hitem
    rfl
  · next hitem => simp [h] at hitem

theorem items_of_none {edge : Edge} {c : Char} {cs : List Char}
    (h : takeItem? edge (c :: cs) = none) : items edge (c :: cs) = items (.after c) cs := by
  rw [items]
  split
  · next hitem => simp [h] at hitem
  · rfl

/-- Blanks are passed over. -/
theorem items_blank {b : Char} (hb : isBlank b = true) (edge : Edge) (cs : List Char) :
    items edge (b :: cs) = items .free cs := by
  rw [items_of_none (takeItem?_blank hb edge cs), after_blank hb]

theorem items_trimStart (cs : List Char) : items .free (trimStart cs) = items .free cs := by
  induction cs with
  | nil => rfl
  | cons c cs ih =>
    cases hc : isBlank c with
    | true => rw [trimStart_cons_blank hc, items_blank hc, ih]
    | false => rw [trimStart_cons hc]

theorem items_nil (edge : Edge) : items edge [] = [] := by
  rw [items]
  rfl

theorem items_tighten (edge : Edge) (cs : List Char) : items edge (tighten cs) = items edge cs := by
  fun_induction items edge cs with
  | case1 edge cs i edge' rest hitem ih =>
    have hhead : ∀ c ∈ cs.head?, isBlank c = false := by
      intro c hc
      by_contra hblank
      obtain ⟨ds, rfl⟩ := List.head?_eq_some_iff.1 hc
      simp [takeItem?_blank (eq_true_of_ne_false hblank)] at hitem
    have htight := takeItem?_tighten edge hhead
    rw [hitem] at htight
    rw [items_of_some htight, ih]
  | case2 edge h => exact items_nil edge
  | case3 edge c cs hitem ih =>
    cases hc : isBlank c with
    | true =>
      rw [after_blank hc] at ih ⊢
      have hrest : items .free (tighten (trimStart cs)) = items .free cs := by
        rw [← trimStart_tighten, items_trimStart, ih]
      rcases tighten_blank hc cs with ⟨h, hnil⟩ | h
      · rw [h, ← hrest, hnil, items_nil, items_nil]
      · rw [h, items_blank (by decide), hrest]
    | false =>
      -- A quote where no item starts has no partner.
      have hlone : tighten (c :: cs) = c :: tighten cs := by
        by_cases hquote : c = '"'
        · subst hquote
          refine tighten_lone fun hin => ?_
          simp [takeItem?, quotedItem?, hin] at hitem
        · exact tighten_solid (isSolid_eq_true.2 ⟨hc, hquote⟩) cs
      have hhead : ∀ d ∈ (c :: cs).head?, isBlank d = false := by simpa using hc
      have htight := takeItem?_tighten edge hhead
      rw [hitem, hlone] at htight
      rw [hlone, items_of_none htight, ih]

theorem items_respace (cs : List Char) : items .free (respace cs) = items .free cs := by
  rw [respace_eq_tighten, items_tighten, items_trimStart]

/-- Spacing a statement leaves its literals as they are. -/
theorem extract_normalize (t : String) : extract (Text.normalize t) = extract t := by
  rw [extract, Text.normalize, String.toList_ofList, items_respace, extract]

end Spec

end Acceptance

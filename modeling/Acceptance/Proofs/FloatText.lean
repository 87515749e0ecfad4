import Acceptance.Proofs.NumberText
import Acceptance.Proofs.Rounding
/-!
The text of a binary64 number tells which number it is: the digits that are chosen read back as the
number, and no layout changes their value.
-/
namespace Acceptance.Binary64

open Json

variable {negative : Bool} {m : ℕ} {e : ℤ}

theorem neg_ofRatio (num den : ℕ) : ofRatio true num den = (ofRatio false num den).neg := by
  unfold ofRatio
  dsimp only
  split_ifs <;> rfl

theorem neg_ofDecimal (digits : ℕ) (exponent : ℤ) :
    ofDecimal true digits exponent = (ofDecimal false digits exponent).neg := by
  rw [ofDecimal_eq, ofDecimal_eq]
  split_ifs
  · rfl
  · rfl
  · rfl
  · exact neg_ofRatio _ _

theorem neg_cancel (x : Binary64) : x.neg.neg = x := by
  cases x <;> simp [neg]

/-- What is found with fewer digits reads back, by choice. -/
theorem readsBack_of_withDigits? {x : Binary64} {d found : Decimal} {count : ℕ}
    (h : withDigits? x d count = some found) : readsBack x found = true := by
  unfold withDigits? at h
  dsimp only at h
  split at h
  · next hlow hhigh =>
    cases h
    split
    · exact hlow
    · exact hhigh
    · split
      · exact hlow
      · exact hhigh
  · next hlow _ =>
    cases h
    exact hlow
  · next hhigh =>
    cases h
    exact hhigh
  · cases h

/-- The digits that a number is written with read back as the number. -/
theorem ofDecimal_shortest (h : (Binary64.finite negative m e).Canonical) :
    ofDecimal negative (shortest m e).digits (shortest m e).exponent = .finite negative m e := by
  have hfalse : ofDecimal false (shortest m e).digits (shortest m e).exponent = .finite false m e := by
    unfold shortest
    dsimp only
    cases hfound : List.findSome? (withDigits? (.finite false m e) (exactDecimal m e)) _ with
    | none => exact ofDecimal_exact h (exactDecimal_value m e)
    | some found =>
      obtain ⟨count, -, hcount⟩ := List.exists_of_findSome?_eq_some hfound
      exact eq_of_beq (readsBack_of_withDigits? hcount)
  cases negative with
  | false => exact hfalse
  | true => rw [neg_ofDecimal, hfalse, neg, Bool.not_false]

theorem value_of_sameDecimal {d d' : Decimal} (h : SameDecimal d d') :
    (d.digits : ℚ) * 10 ^ d.exponent = d'.digits * 10 ^ d'.exponent := by
  obtain ⟨n, j, k, hd, hd', hexponent⟩ := h
  rw [hd, hd']
  push_cast
  rw [mul_assoc, mul_assoc, ← zpow_natCast, ← zpow_natCast, ← zpow_add₀ (by norm_num),
    ← zpow_add₀ (by norm_num), add_comm, hexponent, add_comm]

/-- The text of a number is read as the number. -/
theorem exists_text_number (h : (Binary64.finite negative m e).Canonical) :
    ∃ whole, ∃ t : Tail, IsWhole whole ∧ t.WellFormed ∧ t.isEmpty = false ∧
      (Binary64.finite negative m e).text.toList =
        (if negative then ['-'] else []) ++ (whole ++ t.text) ∧
      t.number negative whole = .finite negative m e := by
  obtain ⟨whole, t, hwhole, ht, hne, htext, hsame⟩ := exists_decimal_eq (shortest m e)
  refine ⟨whole, t, hwhole, ht, hne, ?_, ?_⟩
  · rw [← htext]
    cases negative <;> simp [Binary64.text]
  · rw [← ofDecimal_shortest h]
    exact ofDecimal_congr negative (value_of_sameDecimal hsame).symm

theorem exists_readNumber?_text (h : (Binary64.finite negative m e).Canonical) :
    ∃ next, readNumber? ⟨(Binary64.finite negative m e).text.toList ++ [','], 0⟩ =
      some (.ok (.float (.finite negative m e), ⟨[','], next⟩)) := by
  obtain ⟨whole, t, hwhole, ht, hne, htext, hnumber⟩ := exists_text_number h
  obtain ⟨next, hread⟩ := readNumber?_text negative 0 hwhole ht ⟨[], .inl rfl⟩
  rw [hne, hnumber] at hread
  refine ⟨next, ?_⟩
  rw [htext, List.append_assoc, List.append_assoc]
  exact hread

theorem startsNumber_text (h : (Binary64.finite negative m e).Canonical) :
    StartsNumber (Binary64.finite negative m e).text.toList := by
  obtain ⟨whole, t, hwhole, -, -, htext, -⟩ := exists_text_number h
  rw [htext]
  exact startsNumber_append negative hwhole t.text

/-- What has no digits is none of the finite numbers. -/
theorem not_startsNumber_of_not_finite {x : Binary64} (h : ∀ negative m e, x ≠ .finite negative m e) :
    ¬StartsNumber x.text.toList := by
  rintro ⟨d, ds, hd, hx | hx⟩
  all_goals
    cases x with
    | finite negative m e => exact h negative m e rfl
    | nan => cases hx <;> cases hd
    | infinite negative => cases negative <;> cases hx <;> cases hd

/-- Numbers of one text are one number. -/
theorem text_injective {x y : Binary64} (hx : x.Canonical) (hy : y.Canonical)
    (h : x.text = y.text) : x = y := by
  cases x with
  | finite negative m e =>
    cases y with
    | finite negative' m' e' =>
      -- both texts are read back, and reading gives one result
      obtain ⟨next, hread⟩ := exists_readNumber?_text hx
      obtain ⟨next', hread'⟩ := exists_readNumber?_text hy
      rw [h, hread'] at hread
      simp only [Option.some.injEq, Except.ok.injEq, Prod.mk.injEq, Value.float.injEq] at hread
      exact hread.1.symm
    | _ => exact absurd (h ▸ startsNumber_text hx) (not_startsNumber_of_not_finite (by simp))
  | nan =>
    cases y with
    | nan => rfl
    | infinite negative =>
      revert h
      cases negative <;> decide
    | finite =>
      exact absurd (h ▸ startsNumber_text hy) (not_startsNumber_of_not_finite (by simp))
  | infinite negative =>
    cases y with
    | nan =>
      revert h
      cases negative <;> decide
    | infinite negative' =>
      revert h
      cases negative <;> cases negative' <;> decide
    | finite =>
      exact absurd (h ▸ startsNumber_text hy) (not_startsNumber_of_not_finite (by simp))

end Acceptance.Binary64

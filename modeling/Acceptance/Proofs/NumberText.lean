import Mathlib.Algebra.Group.Nat.Defs
import Acceptance.Json.Reader
import Acceptance.Json.Writer
import Acceptance.Proofs.TextLines
/-!
Numbers in JSON text. The text of a number is a sign, a whole part without leading zeros, a fraction
and an exponent, and before a comma or a line break just this text is read.
-/
namespace Acceptance.Json

variable {ds whole : List Char} {n : Nat}

/-- What may follow a value in a text that is laid out in lines. -/
def Ends (rest : List Char) : Prop := ∃ cs, rest = ',' :: cs ∨ rest = '\n' :: cs

theorem digitsOf_append {rest : List Char} (hds : ∀ d ∈ ds, isAsciiDigit d = true)
    (hrest : ∀ c ∈ rest.head?, isAsciiDigit c = false) : digitsOf (ds ++ rest) = ds :=
  (Text.span_append hds hrest).1

theorem Ends.not_digit {rest : List Char} (h : Ends rest) :
    ∀ c ∈ rest.head?, isAsciiDigit c = false := by
  obtain ⟨cs, rfl | rfl⟩ := h <;> simp [isAsciiDigit]

theorem Ends.fractionOf {rest : List Char} (h : Ends rest) : fractionOf rest = [] := by
  obtain ⟨cs, rfl | rfl⟩ := h <;> simp [Json.fractionOf]

theorem Ends.exponentOf {rest : List Char} (h : Ends rest) : exponentOf rest = none := by
  obtain ⟨cs, rfl | rfl⟩ := h <;> simp [Json.exponentOf]

/-- The digits of a whole number: only zero itself starts with a zero. -/
structure IsWhole (ds : List Char) : Prop where
  digits : ∀ d ∈ ds, isAsciiDigit d = true
  ne_nil : ds ≠ []
  lead : ds = ['0'] ∨ ds.head? ≠ some '0'

/-- The parts of a number behind the sign and the whole part. -/
structure Tail where
  fraction : List Char
  exponent : Option (Char × List Char)

namespace Tail

def fractionText (t : Tail) : List Char := if t.fraction.isEmpty then [] else '.' :: t.fraction

def exponentText (t : Tail) : List Char :=
  (t.exponent.map fun (sign, ds) => 'e' :: sign :: ds).getD []

def text (t : Tail) : List Char := t.fractionText ++ t.exponentText

structure WellFormed (t : Tail) : Prop where
  fraction : ∀ d ∈ t.fraction, isAsciiDigit d = true
  exponent : ∀ sign ds, t.exponent = some (sign, ds) →
    (sign = '-' ∨ sign = '+') ∧ ds ≠ [] ∧ ∀ d ∈ ds, isAsciiDigit d = true

def isEmpty (t : Tail) : Bool := t.fraction.isEmpty && t.exponent.isNone

def power (t : Tail) : Int :=
  (t.exponent.map fun (sign, ds) =>
    if sign == '-' then -(Numeral.digitsValue ds : Int) else Numeral.digitsValue ds).getD 0

/-- The number that a whole part and a tail stand for. -/
def number (t : Tail) (negative : Bool) (whole : List Char) : Binary64 :=
  .ofDecimal negative (Numeral.digitsValue (whole ++ t.fraction)) (t.power - t.fraction.length)

variable {t : Tail} {rest : List Char}

theorem exponentText_not_digit (hrest : ∀ c ∈ rest.head?, isAsciiDigit c = false) :
    ∀ c ∈ (t.exponentText ++ rest).head?, isAsciiDigit c = false := by
  unfold exponentText
  cases t.exponent with
  | none => exact hrest
  | some e => simp [isAsciiDigit]

theorem text_not_digit (hrest : ∀ c ∈ rest.head?, isAsciiDigit c = false) :
    ∀ c ∈ (t.text ++ rest).head?, isAsciiDigit c = false := by
  rw [text, fractionText]
  split
  · exact exponentText_not_digit hrest
  · simp [isAsciiDigit]

theorem fractionOf_text (h : t.WellFormed) (hrest : Ends rest) :
    fractionOf (t.text ++ rest) = t.fraction := by
  rw [text, fractionText]
  split
  · next hempty =>
    rw [List.isEmpty_iff.1 hempty, exponentText]
    cases t.exponent with
    | none => exact hrest.fractionOf
    | some e => rfl
  · rw [List.append_assoc]
    exact digitsOf_append h.fraction (exponentText_not_digit hrest.not_digit)

theorem length_fractionText :
    t.fractionText.length = if t.fraction.isEmpty then 0 else t.fraction.length + 1 := by
  unfold fractionText
  split <;> rfl

theorem drop_fraction :
    (t.text ++ rest).drop (if t.fraction.isEmpty then 0 else t.fraction.length + 1) =
      t.exponentText ++ rest := by
  rw [← length_fractionText, text, List.append_assoc, List.drop_left]

/-- The exponent is read to its end, if there is one. -/
theorem exponentOf_text (h : t.WellFormed) (hrest : Ends rest) :
    (exponentOf (t.exponentText ++ rest)).isNone = t.exponent.isNone ∧
      ((exponentOf (t.exponentText ++ rest)).map (·.1)).getD 0 = t.exponentText.length ∧
      ((exponentOf (t.exponentText ++ rest)).map (·.2)).getD 0 = t.power := by
  unfold exponentText power
  cases he : t.exponent with
  | none => simp [hrest.exponentOf]
  | some e =>
    obtain ⟨sign, ds⟩ := e
    obtain ⟨hsign, hne, hds⟩ := h.exponent sign ds he
    have hdigits := digitsOf_append hds hrest.not_digit
    rcases hsign with rfl | rfl <;> simp [exponentOf, hdigits, hne] <;> omega

end Tail

theorem splitSign_append (negative : Bool) (rest : List Char) (h : IsWhole whole) :
    splitSign ((if negative then ['-'] else []) ++ (whole ++ rest)) = (negative, whole ++ rest) := by
  cases negative with
  | true => rfl
  | false =>
    obtain ⟨d, ds, rfl⟩ := List.exists_cons_of_ne_nil h.ne_nil
    have hd : d ≠ '-' := by
      rintro rfl
      exact absurd (h.digits _ List.mem_cons_self) (by decide)
    unfold splitSign
    split
    · next heq => exact absurd (List.cons.inj heq).1 hd
    · rfl

theorem wholeOf_append {rest : List Char} (h : IsWhole whole)
    (hrest : ∀ c ∈ rest.head?, isAsciiDigit c = false) : wholeOf (whole ++ rest) = whole := by
  unfold wholeOf
  split
  · next heq =>
    rcases h.lead with rfl | hlead
    · rfl
    · obtain ⟨d, ds, rfl⟩ := List.exists_cons_of_ne_nil h.ne_nil
      rw [(List.cons.inj heq).1] at hlead
      exact absurd rfl hlead
  · exact digitsOf_append h.digits hrest

/-- What is read where the text of a number stands. -/
theorem readNumber?_text (negative : Bool) {rest : List Char} {t : Tail} (position : Nat)
    (hwhole : IsWhole whole) (ht : t.WellFormed) (hrest : Ends rest) :
    ∃ next, readNumber?
        ⟨(if negative then ['-'] else []) ++ (whole ++ (t.text ++ rest)), position⟩ =
      some (if t.isEmpty then
        if whole.length > Numeral.maxDigits then .error (.misfit (.integerTooLong whole.length))
        else .ok (.int (Numeral.signed negative (Numeral.digitsValue whole)), ⟨rest, next⟩)
      else .ok (.float (t.number negative whole), ⟨rest, next⟩)) := by
  have hne : whole.isEmpty = false := by simpa using hwhole.ne_nil
  obtain ⟨hnone, hlength, hpower⟩ := Tail.exponentOf_text ht hrest
  have hsize : (if negative = true then 1 else 0) + whole.length +
      (if t.fraction.isEmpty = true then 0 else t.fraction.length + 1) + t.exponentText.length =
        ((if negative then ['-'] else []) ++ (whole ++ t.text)).length := by
    rw [← Tail.length_fractionText, Tail.text]
    cases negative <;> simp <;> omega
  have hdrop : ((if negative then ['-'] else []) ++ (whole ++ (t.text ++ rest))).drop
      ((if negative then ['-'] else []) ++ (whole ++ t.text)).length = rest := by
    simp only [← List.append_assoc]
    exact List.drop_left
  simp only [readNumber?, splitSign_append negative _ hwhole,
    wholeOf_append hwhole (Tail.text_not_digit hrest.not_digit), hne, List.drop_left,
    Tail.fractionOf_text ht hrest, Tail.drop_fraction, hnone, hlength, hpower, hsize, hdrop]
  exact ⟨_, rfl⟩

/-- A digit comes first, or a minus sign and a digit. -/
def StartsNumber (cs : List Char) : Prop :=
  ∃ d ds, isAsciiDigit d = true ∧ (cs = d :: ds ∨ cs = '-' :: d :: ds)

theorem startsNumber_append (negative : Bool) (hwhole : IsWhole whole) (more : List Char) :
    StartsNumber ((if negative then ['-'] else []) ++ (whole ++ more)) := by
  obtain ⟨d, ds, rfl⟩ := List.exists_cons_of_ne_nil hwhole.ne_nil
  refine ⟨d, ds ++ more, hwhole.digits d List.mem_cons_self, ?_⟩
  cases negative <;> simp

/-! Integers. -/

theorem isAsciiDigit_of_mem_toDigits {c : Char} (h : c ∈ Nat.toDigits 10 n) :
    isAsciiDigit c = true :=
  Nat.isDigit_of_mem_toDigits (by decide) (by decide) h

theorem head?_toDigits (h : n ≠ 0) : (Nat.toDigits 10 n).head? ≠ some '0' := by
  induction n using Nat.base_induction 10 (by decide) with
  | single m hm =>
    rw [Nat.toDigits_of_lt_base hm]
    simpa using h
  | digit m k hk hm ih =>
    rw [← Nat.toDigits_append_toDigits (by decide) hm hk, List.head?_append_of_ne_nil _ (by simp)]
    exact ih (by omega)

theorem isWhole_toDigits (n : Nat) : IsWhole (Nat.toDigits 10 n) where
  digits _ := isAsciiDigit_of_mem_toDigits
  ne_nil := Nat.toDigits_ne_nil
  lead := by
    by_cases h : n = 0
    · exact .inl (by simp [h])
    · exact .inr (head?_toDigits h)

theorem digitValue?_of_isAsciiDigit {c : Char} (h : isAsciiDigit c = true) :
    Text.digitValue? c = some (c.toNat - 48) := by
  simp only [isAsciiDigit, Bool.and_eq_true, decide_eq_true_eq] at h
  have hlow : 48 ≤ c.toNat := h.1
  have hhigh : c.toNat ≤ 57 := h.2
  simp [Text.digitValue?, Text.digitZeros, hlow, show c.toNat < 58 by omega]

theorem digitsValue_toDigits (n : Nat) : Numeral.digitsValue (Nat.toDigits 10 n) = n := by
  have hfold (ds : List Char) (hds : ∀ d ∈ ds, isAsciiDigit d = true) (m : Nat) :
      ds.foldl (fun n c => 10 * n + (Text.digitValue? c).getD 0) m = Nat.ofDigitChars 10 ds m := by
    induction ds generalizing m with
    | nil => simp
    | cons d ds ih =>
      obtain ⟨hd, hds⟩ := List.forall_mem_cons.1 hds
      rw [List.foldl_cons, Nat.ofDigitChars_cons, ih hds, digitValue?_of_isAsciiDigit hd]
      rfl
  rw [Numeral.digitsValue, hfold _ fun _ => isAsciiDigit_of_mem_toDigits,
    Nat.ofDigitChars_ten_toDigits]

theorem digitsValue_append (ds es : List Char) : Numeral.digitsValue (ds ++ es) =
    Numeral.digitsValue ds * 10 ^ es.length + Numeral.digitsValue es := by
  have hfold (es : List Char) (m : Nat) :
      es.foldl (fun n c => 10 * n + (Text.digitValue? c).getD 0) m =
        m * 10 ^ es.length + Numeral.digitsValue es := by
    induction es generalizing m with
    | nil => simp [Numeral.digitsValue]
    | cons e es ih =>
      rw [Numeral.digitsValue, List.foldl_cons, List.foldl_cons, ih, ih (10 * 0 + _), List.length_cons,
        Nat.pow_succ', Nat.mul_zero, Nat.zero_add, Nat.add_mul, ← Nat.mul_assoc, Nat.mul_comm 10 m,
        Nat.add_assoc]
  rw [Numeral.digitsValue, List.foldl_append, hfold]
  rfl

theorem toList_toString_int (n : Int) :
    (toString n).toList = (if n < 0 then ['-'] else []) ++ Nat.toDigits 10 n.natAbs := by
  cases n with
  | ofNat m =>
    have hm : ¬Int.ofNat m < 0 := Int.not_lt.2 (Int.natCast_nonneg m)
    rw [if_neg hm]
    exact Nat.toList_repr
  | negSucc m =>
    rw [if_pos (Int.negSucc_lt_zero m)]
    exact String.toList_append.trans (congrArg _ Nat.toList_repr)

theorem length_toDigits_le_iff {k : Nat} (hk : 0 < k) :
    (Nat.toDigits 10 n).length ≤ k ↔ n < Nat.pow 10 k :=
  Nat.length_toDigits_le_iff (by decide) hk

/-- An integer comes back, unless it has more digits than may be read. -/
theorem readNumber?_int (n : Int) {rest : List Char} (hrest : Ends rest) (position : Nat) :
    ∃ next, readNumber? ⟨(toString n).toList ++ rest, position⟩ =
      some (if n.natAbs < Value.tooLong then .ok (.int n, ⟨rest, next⟩)
        else .error (.misfit (.integerTooLong (Nat.toDigits 10 n.natAbs).length))) := by
  have htail : (Tail.mk [] none).WellFormed := ⟨by simp, by simp⟩
  obtain ⟨next, hread⟩ :=
    readNumber?_text (decide (n < 0)) position (isWhole_toDigits n.natAbs) htail hrest
  have hvalue : Numeral.signed (decide (n < 0)) n.natAbs = n := by
    unfold Numeral.signed
    split
    · next hneg =>
      have hneg := of_decide_eq_true hneg
      omega
    · next hneg =>
      have hneg : ¬n < 0 := fun hlt => hneg (decide_eq_true hlt)
      omega
  have hdigits : (Nat.toDigits 10 n.natAbs).length ≤ Numeral.maxDigits ↔
      n.natAbs < Value.tooLong := by
    unfold Value.tooLong
    exact length_toDigits_le_iff (by decide)
  refine ⟨next, ?_⟩
  rw [toList_toString_int, List.append_assoc]
  by_cases hshort : n.natAbs < Value.tooLong
  · have hlength := Nat.not_lt.2 (hdigits.2 hshort)
    simpa [Tail.isEmpty, Tail.text, Tail.fractionText, Tail.exponentText, hshort, hlength, hvalue,
      digitsValue_toDigits] using hread
  · have hlength := Nat.not_le.1 (hdigits.not.2 hshort)
    simpa [Tail.isEmpty, Tail.text, Tail.fractionText, Tail.exponentText, hshort, hlength]
      using hread

theorem startsNumber_int (n : Int) : StartsNumber (toString n).toList := by
  have h := startsNumber_append (decide (n < 0)) (isWhole_toDigits n.natAbs) []
  rw [toList_toString_int]
  simpa using h

/-! Binary64 numbers. -/

open Binary64

theorem isAsciiDigit_of_mem_zeros : ∀ d ∈ zeros n, isAsciiDigit d = true := by
  intro d hd
  rw [List.eq_of_mem_replicate hd]
  rfl

theorem isAsciiDigit_append {cs : List Char} (hcs : ∀ d ∈ cs, isAsciiDigit d = true)
    (hds : ∀ d ∈ ds, isAsciiDigit d = true) : ∀ d ∈ cs ++ ds, isAsciiDigit d = true := by
  intro d hd
  rcases List.mem_append.1 hd with hd | hd
  · exact hcs d hd
  · exact hds d hd

theorem digitsValue_zeros (n : Nat) : Numeral.digitsValue (zeros n) = 0 := by
  induction n with
  | zero => rfl
  | succ n ih =>
    have hzeros : zeros (n + 1) = ['0'] ++ zeros n := rfl
    rw [hzeros, digitsValue_append, ih]
    simp [Numeral.digitsValue, digitValue?_of_isAsciiDigit (c := '0') rfl]

theorem digitsValue_zeros_append (n : Nat) (ds : List Char) :
    Numeral.digitsValue (zeros n ++ ds) = Numeral.digitsValue ds := by
  rw [digitsValue_append, digitsValue_zeros, Nat.zero_mul, Nat.zero_add]

theorem digitsValue_append_zeros (ds : List Char) (n : Nat) :
    Numeral.digitsValue (ds ++ zeros n) = Numeral.digitsValue ds * 10 ^ n := by
  rw [digitsValue_append, digitsValue_zeros, Nat.add_zero, zeros, List.length_replicate]

theorem exists_trimZeros_append (ds : List Char) : ∃ n, ds = trimZeros ds ++ zeros n := by
  have hzeros : ∀ c ∈ (ds.reverse.takeWhile (· = '0')).reverse, c = '0' := by
    intro c hc
    have hzero := List.mem_takeWhile_imp (List.mem_reverse.1 hc)
    exact of_decide_eq_true hzero
  refine ⟨(ds.reverse.takeWhile (· = '0')).reverse.length, ?_⟩
  rw [zeros, ← List.eq_replicate_of_mem hzeros, trimZeros, ← List.reverse_append,
    List.takeWhile_append_dropWhile, List.reverse_reverse]

theorem isWhole_cons_take {d : Char} (h : ∀ c ∈ d :: ds, isAsciiDigit c = true) (hd : d ≠ '0')
    (hn : 0 < n) : IsWhole ((d :: ds).take n) := by
  obtain ⟨m, rfl⟩ := Nat.exists_eq_succ_of_ne_zero hn.ne'
  exact ⟨fun c hc => h c (List.mem_of_mem_take hc), by simp, .inr (by simpa using hd)⟩

theorem exists_exponentText_eq (k : Int) : ∃ sign ds, (sign = '-' ∨ sign = '+') ∧ ds ≠ [] ∧
    (∀ d ∈ ds, isAsciiDigit d = true) ∧ plainLayout.exponentText k = sign :: ds ∧
      (Tail.mk [] (some (sign, ds))).power = k := by
  refine ⟨if k < 0 then '-' else '+', zeros (plainLayout.exponentWidth -
    (Nat.toDigits 10 k.natAbs).length) ++ Nat.toDigits 10 k.natAbs, ?_, ?_, ?_, rfl, ?_⟩
  · split
    · exact .inl rfl
    · exact .inr rfl
  · simp
  · exact isAsciiDigit_append isAsciiDigit_of_mem_zeros fun _ => isAsciiDigit_of_mem_toDigits
  · simp only [Tail.power, Option.map_some, Option.getD_some, digitsValue_zeros_append,
      digitsValue_toDigits]
    split
    · rw [if_pos (by decide)]
      omega
    · rw [if_neg (by decide)]
      omega

namespace Tail

/-- The decimal that a whole part and a tail stand for. -/
def decimal (t : Tail) (whole : List Char) : Decimal :=
  ⟨Numeral.digitsValue (whole ++ t.fraction), t.power - t.fraction.length⟩

/-- The decimal has the digits, and maybe zeros behind them, with the point at its place. -/
def Shows (t : Tail) (whole ds : List Char) (point : Int) : Prop :=
  ∃ k : Nat, (t.decimal whole).digits = Numeral.digitsValue ds * 10 ^ k ∧
    (t.decimal whole).exponent + k = point - ds.length

end Tail

/-- However a decimal is laid out, it is a whole part and a tail. -/
theorem exists_text_eq {d : Char} (h : ∀ c ∈ d :: ds, isAsciiDigit c = true) (hd : d ≠ '0')
    (point : Int) : ∃ whole, ∃ t : Tail, IsWhole whole ∧ t.WellFormed ∧
      t.isEmpty = false ∧ plainLayout.text (d :: ds) point = whole ++ t.text ∧
        t.Shows whole (d :: ds) point := by
  have hnone (fraction : List Char) (hfraction : ∀ c ∈ fraction, isAsciiDigit c = true) :
      (Tail.mk fraction none).WellFormed := ⟨hfraction, by simp⟩
  unfold Layout.text
  split
  · split
    · -- the point is before all digits, with zeros between
      refine ⟨['0'], ⟨zeros (-point).toNat ++ d :: ds, none⟩, ?_, ?_, ?_, ?_, 0, ?_, ?_⟩
      · exact ⟨by simp [isAsciiDigit], by simp, .inl rfl⟩
      · exact hnone _ (isAsciiDigit_append isAsciiDigit_of_mem_zeros h)
      · simp [Tail.isEmpty]
      · simp [Tail.text, Tail.fractionText, Tail.exponentText]
      · have hzeros : ['0'] ++ (zeros (-point).toNat ++ d :: ds) =
            zeros ((-point).toNat + 1) ++ d :: ds := rfl
        rw [Tail.decimal, hzeros, digitsValue_zeros_append, Nat.pow_zero, Nat.mul_one]
      · simp [Tail.decimal, Tail.power, zeros]
        omega
    · split
      · -- the point is behind all digits, so there is one zero more behind it
        refine ⟨d :: ds ++ zeros (point.toNat - (d :: ds).length), ⟨['0'], none⟩, ?_, ?_, rfl, rfl,
          point.toNat - (d :: ds).length + 1, ?_, ?_⟩
        · exact ⟨isAsciiDigit_append h isAsciiDigit_of_mem_zeros, by simp, .inr (by simpa using hd)⟩
        · exact hnone _ (by simp [isAsciiDigit])
        · change Numeral.digitsValue (d :: ds ++ zeros _ ++ zeros 1) = _
          rw [digitsValue_append_zeros, digitsValue_append_zeros, Nat.mul_assoc, ← Nat.pow_add]
        · change (0 : Int) - (1 : Nat) + _ = _
          omega
      · -- the point is among the digits
        refine ⟨(d :: ds).take point.toNat, ⟨(d :: ds).drop point.toNat, none⟩, ?_, ?_, ?_, ?_, 0, ?_, ?_⟩
        · exact isWhole_cons_take h hd (by omega)
        · exact hnone _ fun c hc => h c (List.mem_of_mem_drop hc)
        · simp only [Tail.isEmpty, Bool.and_eq_false_iff, List.isEmpty_eq_false_iff]
          exact .inl (List.drop_eq_nil_iff.not.2 (by omega))
        · have hempty : ((d :: ds).drop point.toNat).isEmpty = false := by
            rw [List.isEmpty_eq_false_iff]
            exact List.drop_eq_nil_iff.not.2 (by omega)
          simp [Tail.text, Tail.fractionText, Tail.exponentText, hempty]
        · rw [Tail.decimal, List.take_append_drop, Nat.pow_zero, Nat.mul_one]
        · change (0 : Int) - ((d :: ds).drop point.toNat).length + (0 : Nat) = _
          rw [List.length_drop]
          omega
  · -- the point is behind the first digit, and an exponent tells where it belongs
    obtain ⟨sign, es, hsign, hne, hes, htext, hpower⟩ := exists_exponentText_eq (point - 1)
    refine ⟨[d], ⟨ds, some (sign, es)⟩, ?_, ?_, by simp [Tail.isEmpty], ?_, 0, ?_, ?_⟩
    · exact isWhole_cons_take h hd Nat.one_pos
    · refine ⟨fun c hc => h c (List.mem_cons_of_mem _ hc), ?_⟩
      rintro sign' es' heq
      cases heq
      exact ⟨hsign, hne, hes⟩
    · rw [htext]
      cases ds <;> simp [Tail.text, Tail.fractionText, Tail.exponentText]
    · rw [Nat.pow_zero, Nat.mul_one]
      rfl
    · change (Tail.mk [] (some (sign, es))).power - ds.length + (0 : Nat) = _
      rw [hpower, List.length_cons]
      omega

/-- The decimal is another one up to zeros at the end. -/
def SameDecimal (d d' : Decimal) : Prop :=
  ∃ n j k : Nat, d.digits = n * 10 ^ j ∧ d'.digits = n * 10 ^ k ∧ d.exponent + j = d'.exponent + k

theorem exists_decimal_eq (d : Decimal) : ∃ whole, ∃ t : Tail, IsWhole whole ∧ t.WellFormed ∧
    t.isEmpty = false ∧ plainLayout.decimal d = whole ++ t.text ∧
      SameDecimal d (t.decimal whole) := by
  unfold Layout.decimal
  dsimp only
  split
  · next hzero =>
    refine ⟨['0'], ⟨['0'], none⟩, ?_, ⟨by simp [isAsciiDigit], by simp⟩, rfl, rfl, ?_⟩
    · exact ⟨by simp [isAsciiDigit], by simp, .inl rfl⟩
    · refine ⟨0, (-1 - d.exponent).toNat, (d.exponent + 1).toNat, by omega, ?_, ?_⟩
      · rw [Nat.zero_mul]
        exact digitsValue_zeros 2
      · change d.exponent + _ = 0 - (1 : Nat) + _
        omega
  · next hzero =>
    have hlead := head?_toDigits hzero
    have hdigits : ∀ c ∈ Nat.toDigits 10 d.digits, isAsciiDigit c = true :=
      fun _ => isAsciiDigit_of_mem_toDigits
    have hpre : trimZeros (Nat.toDigits 10 d.digits) <+: Nat.toDigits 10 d.digits :=
      List.rdropWhile_prefix _ _
    cases htrim : trimZeros (Nat.toDigits 10 d.digits) with
    | nil =>
      -- Only zeros can be trimmed away, and the first digit is none.
      have hall := List.rdropWhile_eq_nil_iff.1 htrim
      obtain ⟨c, cs, hcs⟩ := List.exists_cons_of_ne_nil (Nat.toDigits_ne_nil (n := d.digits) (b := 10))
      rw [hcs] at hall hlead
      have hc := hall c List.mem_cons_self
      simp_all
    | cons c cs =>
      obtain ⟨j, hj⟩ := exists_trimZeros_append (Nat.toDigits 10 d.digits)
      rw [htrim] at hpre hj
      have hc : c ≠ '0' := by
        rintro rfl
        rw [hj] at hlead
        exact hlead rfl
      obtain ⟨whole, t, hwhole, ht, hne, htext, k, hvalue, hpoint⟩ := exists_text_eq
        (fun a ha => hdigits a (hpre.subset ha)) hc ((Nat.toDigits 10 d.digits).length + d.exponent)
      refine ⟨whole, t, hwhole, ht, hne, htext, Numeral.digitsValue (c :: cs), j, k, ?_, hvalue, ?_⟩
      · rw [← digitsValue_append_zeros, ← hj, digitsValue_toDigits]
      · have hlength := congrArg List.length hj
        rw [List.length_append, zeros, List.length_replicate] at hlength
        omega

theorem exists_number_eq (negative : Bool) (m : Nat) (e : Int) :
    ∃ whole, ∃ t : Tail, IsWhole whole ∧ t.WellFormed ∧ t.isEmpty = false ∧
      (number (.finite negative m e)).toList =
        (if negative then ['-'] else []) ++ (whole ++ t.text) := by
  obtain ⟨whole, t, hwhole, ht, hne, htext, -⟩ := exists_decimal_eq (shortest m e)
  refine ⟨whole, t, hwhole, ht, hne, ?_⟩
  rw [← htext]
  cases negative <;> simp [number, Binary64.text]

theorem exists_readNumber?_finite (negative : Bool) (m : Nat) (e : Int) :
    StartsNumber (number (.finite negative m e)).toList ∧
    ∃ x, ∀ rest, Ends rest → ∀ position, ∃ next,
      readNumber? ⟨(number (.finite negative m e)).toList ++ rest, position⟩ =
        some (.ok (.float x, ⟨rest, next⟩)) := by
  obtain ⟨whole, t, hwhole, ht, hne, hnumber⟩ := exists_number_eq negative m e
  rw [hnumber]
  refine ⟨startsNumber_append negative hwhole t.text, t.number negative whole,
    fun rest hrest position => ?_⟩
  obtain ⟨next, hread⟩ := readNumber?_text negative position hwhole ht hrest
  refine ⟨next, ?_⟩
  simpa [hne] using hread

end Acceptance.Json

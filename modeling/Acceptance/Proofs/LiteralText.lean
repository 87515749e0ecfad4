import Acceptance.Proofs.EmittedLines
import Acceptance.Proofs.FloatText
/-!
Operands in code. An operand is a literal or the variable of an action; its text tells which one it is
and where it ends.
-/
namespace Acceptance

open Text

/-! Literals in the form in which they are read. -/

namespace Literal

/-- A torn text is really torn, and a number is given in its only form. -/
def Canonical : Literal → Prop
  | .torn ps => AreCodes ps ∧ ofPoints? ps = none
  | .float x => x.Canonical
  | _ => True

/-- The code points of a literal that is quoted. -/
def points? : Literal → Option (List Nat)
  | .text s => some (points s)
  | .torn ps => some ps
  | _ => none

/-- The text of a literal in code. -/
def code (l : Literal) : String := (Value.ofLiteral l).literal

/-- The word of a truth value. -/
def truthWord (b : Bool) : String := if b then "True" else "False"

variable {l l' : Literal} {ps : List Nat}

theorem code_of_points? (h : l.points? = some ps) : l.code.toList = quotePoints ps := by
  cases l with
  | text s =>
    cases h
    rw [code, Value.ofLiteral, Value.literal_text, ← quotedPoints_points, quotedPoints,
      String.toList_ofList]
  | torn ps =>
    cases h
    simp [code, Value.ofLiteral, Value.literal, Value.literalIn, quotedPoints]
  | _ => cases h

theorem areCodes_of_points? (hl : l.Canonical) (h : l.points? = some ps) : AreCodes ps := by
  cases l with
  | text s =>
    cases h
    exact areCodes_points s
  | torn ps =>
    cases h
    exact hl.1
  | _ => cases h

theorem eq_of_points? (hl : l.Canonical) (hl' : l'.Canonical) (h : l.points? = some ps)
    (h' : l'.points? = some ps) : l = l' := by
  -- the points of a whole text are not torn
  have htorn {s : String} {ps : List Nat} (hps : points s = ps) : ofPoints? ps ≠ none := by
    rw [← hps, ofPoints?_points]
    exact Option.some_ne_none s
  cases l with
  | text s =>
    cases h
    cases l' with
    | text t => exact congrArg text (points_injective (Option.some.inj h').symm)
    | torn ps => exact absurd hl'.2 (htorn (Option.some.inj h').symm)
    | _ => cases h'
  | torn qs =>
    cases h
    cases l' with
    | text t => exact absurd hl.2 (htorn (Option.some.inj h'))
    | torn ps => exact congrArg torn (Option.some.inj h').symm
    | _ => cases h'
  | _ => cases h

@[simp] theorem code_int (n : Int) : code (.int n) = toString n := by
  simp [code, Value.ofLiteral, Value.literal, Value.literalIn]

@[simp] theorem code_float (x : Binary64) : code (.float x) = x.text := by
  simp [code, Value.ofLiteral, Value.literal, Value.literalIn]

@[simp] theorem code_boolean (b : Bool) : code (.boolean b) = truthWord b := by
  simp [code, Value.ofLiteral, Value.literal, Value.literalIn, truthWord]

theorem isBare_code (h : l.points? = none) : ∀ c ∈ l.code.toList, IsBare c := by
  cases l with
  | int n => exact code_int n ▸ isBare_int n
  | float x => exact code_float x ▸ isBare_float x
  | boolean b =>
    rw [code_boolean, truthWord]
    cases b <;> exact forall_mem_of_all (by decide)
  | _ => cases h

end Literal

/-! Numbers and words. -/

open Literal

open Json in
theorem toString_int_injective {m n : Int} (h : toString m = toString n) : m = n := by
  have hsplit (n : Int) : splitSign (toString n).toList = (decide (n < 0), Nat.toDigits 10 n.natAbs) := by
    have hsplit := splitSign_append (decide (n < 0)) [] (isWhole_toDigits n.natAbs)
    rw [toList_toString_int]
    simpa using hsplit
  have hsame := hsplit m
  rw [h, hsplit n] at hsame
  obtain ⟨hsign, hdigits⟩ := Prod.mk.inj hsame
  have hsize := congrArg Numeral.digitsValue hdigits
  rw [digitsValue_toDigits, digitsValue_toDigits] at hsize
  have hsign := decide_eq_decide.1 hsign
  omega

open Json in
/-- An integer is not written as another number. -/
theorem toString_int_ne_text {x : Binary64} (hx : x.Canonical) (n : Int) : toString n ≠ x.text := by
  intro h
  cases x with
  | finite negative m e =>
    obtain ⟨next, hread⟩ := Binary64.exists_readNumber?_text hx
    obtain ⟨next', hread'⟩ := readNumber?_text (t := ⟨[], none⟩) (decide (n < 0)) 0
      (isWhole_toDigits n.natAbs) ⟨by simp, by simp⟩ ⟨[], .inl rfl⟩
    have htext : (toString n).toList ++ [','] = (if decide (n < 0) then ['-'] else []) ++
        (Nat.toDigits 10 n.natAbs ++ ((Tail.mk [] none).text ++ [','])) := by
      rw [toList_toString_int]
      simp [Tail.text, Tail.fractionText, Tail.exponentText]
    rw [← htext, h, hread, Option.some.injEq, if_pos (show (Tail.mk [] none).isEmpty = true from rfl)]
      at hread'
    split at hread'
    · cases hread'
    · cases hread'
  | _ => exact Binary64.not_startsNumber_of_not_finite (by simp) (h ▸ startsNumber_int n)

theorem not_startsNumber_truthWord (b : Bool) : ¬Json.StartsNumber (truthWord b).toList := by
  rintro ⟨d, ds, hd, h | h⟩
  all_goals cases b <;> cases h <;> cases hd

theorem text_ne_truthWord {x : Binary64} (hx : x.Canonical) (b : Bool) : x.text ≠ truthWord b := by
  intro h
  cases x with
  | finite negative m e =>
    exact not_startsNumber_truthWord b (h ▸ Binary64.startsNumber_text hx)
  | nan =>
    revert h
    cases b <;> decide
  | infinite negative =>
    revert h
    cases b <;> cases negative <;> decide

namespace Literal

variable {l l' : Literal}

/-- Literals that are not quoted have different texts. -/
theorem eq_of_code (hl : l.Canonical) (hl' : l'.Canonical) (h : l.points? = none)
    (h' : l'.points? = none) (hcode : l.code = l'.code) : l = l' := by
  have hword (n : Int) (b : Bool) : toString n ≠ truthWord b := fun hsame =>
    not_startsNumber_truthWord b (hsame ▸ Json.startsNumber_int n)
  have htruth : ∀ b b' : Bool, truthWord b = truthWord b' → b = b' := by decide
  cases l with
  | int n =>
    rw [code_int] at hcode
    cases l' with
    | int n' => exact congrArg int (toString_int_injective (hcode.trans (code_int n')))
    | float x => exact absurd (hcode.trans (code_float x)) (toString_int_ne_text hl' n)
    | boolean b => exact absurd (hcode.trans (code_boolean b)) (hword n b)
    | _ => cases h'
  | float x =>
    rw [code_float] at hcode
    cases l' with
    | int n => exact absurd (hcode.trans (code_int n)).symm (toString_int_ne_text hl n)
    | float y => exact congrArg float (Binary64.text_injective hl hl' (hcode.trans (code_float y)))
    | boolean b => exact absurd (hcode.trans (code_boolean b)) (text_ne_truthWord hl b)
    | _ => cases h'
  | boolean b =>
    rw [code_boolean] at hcode
    cases l' with
    | int n => exact absurd (hcode.trans (code_int n)).symm (hword n b)
    | float x => exact absurd (hcode.trans (code_float x)).symm (text_ne_truthWord hl' b)
    | boolean b' => exact congrArg boolean (htruth b b' (hcode.trans (code_boolean b')))
    | _ => cases h'
  | _ => cases h

/-- How a literal starts: not as a variable, nor as a call or its negation. -/
def Starts (cs : List Char) : Prop :=
  ∃ c rest, cs = c :: rest ∧ c ≠ 'w' ∧ c ≠ 'o' ∧ (c = 'n' → rest.head? = some 'a')

theorem Starts.append {cs : List Char} (h : Starts cs) (more : List Char) : Starts (cs ++ more) := by
  obtain ⟨c, rest, rfl, hw, ho, hn⟩ := h
  refine ⟨c, rest ++ more, rfl, hw, ho, fun hc => ?_⟩
  rw [List.head?_append, hn hc]
  rfl

theorem starts_of_startsNumber {cs : List Char} (h : Json.StartsNumber cs) : Starts cs := by
  obtain ⟨d, ds, hd, rfl | rfl⟩ := h
  · have hne {c : Char} (hc : Json.isAsciiDigit c = false) : d ≠ c := by
      rintro rfl
      exact absurd hd (by rw [hc]; decide)
    exact ⟨d, ds, rfl, hne rfl, hne rfl, fun hn => absurd hn (hne rfl)⟩
  · exact ⟨'-', d :: ds, rfl, by decide, by decide, fun hn => absurd hn (by decide)⟩

theorem starts_code (hl : l.Canonical) : Starts l.code.toList := by
  have hquoted {ps : List Nat} (h : l.points? = some ps) : Starts l.code.toList := by
    rw [code_of_points? h]
    refine ⟨_, _, rfl, ?_⟩
    rcases quoteFor_eq (visible ps) with hq | hq <;> rw [hq] <;> simp
  cases l with
  | text s => exact hquoted rfl
  | torn ps => exact hquoted rfl
  | int n => exact code_int n ▸ starts_of_startsNumber (Json.startsNumber_int n)
  | float x =>
    rw [code_float]
    cases x with
    | finite => exact starts_of_startsNumber (Binary64.startsNumber_text hl)
    -- this one starts as `not` does, so the next character is needed
    | nan => exact ⟨'n', _, rfl, by decide, by decide, fun _ => rfl⟩
    | infinite negative => cases negative <;> exact ⟨_, _, rfl, by decide, by decide, by decide⟩
  | boolean b =>
    rw [code_boolean]
    cases b <;> exact ⟨_, _, rfl, by decide, by decide, by decide⟩

end Literal

/-! Operands. -/

/-- What is passed to an operation or expected of it: the result of an action, or a literal. -/
inductive Operand
  | result (n : Nat)
  | literal (l : Literal)
  deriving DecidableEq, Repr

namespace Operand

def code : Operand → String
  | .result n => Emission.actionVariable n
  | .literal l => l.code

def Canonical : Operand → Prop
  | .result _ => True
  | .literal l => l.Canonical

def points? : Operand → Option (List Nat)
  | .result _ => none
  | .literal l => l.points?

variable {o o' : Operand}

theorem code_result (n : Nat) :
    (code (.result n)).toList = "when_".toList ++ Nat.toDigits 10 n := by
  simp [code, Emission.actionVariable, toString]

theorem isBare_code (h : o.points? = none) : ∀ c ∈ o.code.toList, IsBare c := by
  cases o with
  | literal l => exact Literal.isBare_code h
  | result n =>
    rw [code_result]
    exact List.forall_mem_append.2 ⟨forall_mem_of_all (by decide), isBare_toDigits⟩

theorem code_result_ne {l : Literal} (hl : l.Canonical) (n : Nat) :
    code (.result n) ≠ l.code := by
  intro h
  obtain ⟨c, rest, hc, hw, -⟩ := Literal.starts_code hl
  rw [← h, code_result] at hc
  exact hw (List.cons.inj hc).1.symm

theorem eq_of_code (ho : o.Canonical) (ho' : o'.Canonical) (h : o.points? = none)
    (h' : o'.points? = none) (hcode : o.code = o'.code) : o = o' := by
  cases o with
  | result n =>
    cases o' with
    | result n' =>
      have hdigits := congrArg String.toList hcode
      rw [code_result, code_result] at hdigits
      have hvalue := congrArg Numeral.digitsValue (List.append_cancel_left hdigits)
      rw [Json.digitsValue_toDigits, Json.digitsValue_toDigits] at hvalue
      rw [hvalue]
    | literal l => exact absurd hcode (code_result_ne ho' n)
  | literal l =>
    cases o' with
    | result n => exact absurd hcode.symm (code_result_ne ho n)
    | literal l' => exact congrArg literal (Literal.eq_of_code ho ho' h h' hcode)

end Operand

/-- What comes next does not go on with a word or a number. -/
def Stops (cs : List Char) : Prop := ∀ c ∈ cs.head?, ¬IsBare c

theorem stops_cons {c : Char} (h : ¬IsBare c) (cs : List Char) : Stops (c :: cs) := by
  rintro c ⟨rfl⟩
  exact h

theorem bare_append_inj {ds es x y : List Char} (hds : ∀ c ∈ ds, IsBare c) (hes : ∀ c ∈ es, IsBare c)
    (hx : Stops x) (hy : Stops y) (h : ds ++ x = es ++ y) : ds = es ∧ x = y := by
  induction ds generalizing es with
  | nil =>
    cases es with
    | nil => exact ⟨rfl, h⟩
    | cons c es =>
      rw [List.nil_append] at h
      rw [h] at hx
      exact absurd (hes c List.mem_cons_self) (hx c rfl)
  | cons c ds ih =>
    cases es with
    | nil =>
      rw [List.nil_append] at h
      rw [← h] at hy
      exact absurd (hds c List.mem_cons_self) (hy c rfl)
    | cons d es =>
      obtain ⟨rfl, hrest⟩ := List.cons.inj h
      obtain ⟨rfl, rfl⟩ := ih (List.forall_mem_cons.1 hds).2 (List.forall_mem_cons.1 hes).2 hrest
      exact ⟨rfl, rfl⟩

namespace Operand

variable {o o' : Operand}

theorem code_ne_nil (ho : o.Canonical) : o.code.toList ≠ [] := by
  cases o with
  | result n => simp [code_result]
  | literal l =>
    obtain ⟨c, rest, hc, -⟩ := Literal.starts_code ho
    exact hc ▸ List.cons_ne_nil c rest

theorem code_of_points? {ps : List Nat} (h : o.points? = some ps) :
    o.code.toList = quotePoints ps := by
  cases o with
  | result n => cases h
  | literal l => exact Literal.code_of_points? h

/-- What is quoted does not look like what is not. -/
theorem quotePoints_append_ne (ho : o.Canonical) (h : o.points? = none) (ps : List Nat)
    (x y : List Char) : quotePoints ps ++ x ≠ o.code.toList ++ y := by
  intro hsame
  obtain ⟨c, rest, hc⟩ := List.exists_cons_of_ne_nil (code_ne_nil ho)
  have hbare : IsBare c := isBare_code h c (hc ▸ List.mem_cons_self)
  rw [hc] at hsame
  have hquote : quoteFor (visible ps) = c := (List.cons.inj hsame).1
  have hnot : ¬IsBare (quoteFor (visible ps)) := by
    rcases quoteFor_eq (visible ps) with hq | hq <;> rw [hq] <;> decide
  exact hnot (hquote ▸ hbare)

/-- The text of an operand tells the operand, and where it ends. -/
theorem code_append_inj (ho : o.Canonical) (ho' : o'.Canonical) {x y : List Char} (hx : Stops x)
    (hy : Stops y) (h : o.code.toList ++ x = o'.code.toList ++ y) : o = o' ∧ x = y := by
  -- quoted texts end with their quote, and all else where the characters of words end
  cases hp : o.points? with
  | none =>
    cases hp' : o'.points? with
    | none =>
      obtain ⟨hcode, rfl⟩ := bare_append_inj (isBare_code hp) (isBare_code hp') hx hy h
      exact ⟨eq_of_code ho ho' hp hp' (String.toList_inj.1 hcode), rfl⟩
    | some ps =>
      rw [code_of_points? hp'] at h
      exact absurd h.symm (quotePoints_append_ne ho hp ps y x)
  | some ps =>
    rw [code_of_points? hp] at h
    cases hp' : o'.points? with
    | none => exact absurd h (quotePoints_append_ne ho' hp' ps x y)
    | some qs =>
      cases o with
      | result n => cases hp
      | literal l =>
        cases o' with
        | result n => cases hp'
        | literal l' =>
          rw [code_of_points? hp'] at h
          obtain ⟨rfl, rfl⟩ := quotePoints_append_inj (Literal.areCodes_of_points? ho hp)
            (Literal.areCodes_of_points? ho' hp') h
          exact ⟨congrArg literal (Literal.eq_of_points? ho ho' hp hp'), rfl⟩

end Operand
end Acceptance

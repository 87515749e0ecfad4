import Acceptance.Proofs.LiteralText
import Acceptance.Proofs.ShortNumbers
/-!
Reading a line of test code, token by token: words, texts between quotes, numbers, and signs. The
reader takes what tests are made of and refuses everything else, such as texts between three quotes or
numbers with more digits than are read. The text of every literal is read as one token, or as a sign
and a token, and what is behind it is left.
-/
namespace Acceptance.Source

open Text Spec
open Json (isAsciiDigit IsWhole Tail)

variable {c q : Char} {ps : List Nat} {t : Tail} {l : Literal}

inductive Token
  | word (s : String)
  | literal (l : Literal)
  | sign (s : String)
  deriving DecidableEq, Repr

/-! Texts. -/

/-- The text of some code points, which may be torn. -/
def literalOf (ps : List Nat) : Literal :=
  match ofPoints? ps with
  | some s => .text s
  | none => .torn ps

/-- A text behind its opening quote. Three quotes in a row start another kind of text. -/
def takeText? (quote : Char) (cs : List Char) : Option (Token × List Char) :=
  if cs.take 2 = [quote, quote] then none
  else (points? quote cs).map fun (ps, rest) => (.literal (literalOf ps), rest)

/-! Numbers and words. -/

/-- Nothing comes that a word or a number could go on with, nor a quote that it could be a mark of. -/
def ends (cs : List Char) : Bool :=
  cs.head?.all fun c => !isNameChar c && c != '\'' && c != '"' && c.toNat < 128

/-- The digits behind a point. -/
def fraction? : List Char → Option (List Char × List Char)
  | '.' :: cs =>
    let digits := cs.takeWhile isAsciiDigit
    if digits = [] then none else some (digits, cs.dropWhile isAsciiDigit)
  | cs => some ([], cs)

/-- The power of ten that is given behind the digits. -/
def exponent? : List Char → Option (Option Int × List Char)
  | 'e' :: sign :: cs =>
    let digits := cs.takeWhile isAsciiDigit
    if digits = [] then none
    else if sign = '-' then
      some (some (-(Numeral.digitsValue digits : Int)), cs.dropWhile isAsciiDigit)
    else if sign = '+' then some (some (Numeral.digitsValue digits), cs.dropWhile isAsciiDigit)
    else none
  | cs => some (none, cs)

/-- A number without a sign. Zeros do not lead, and a whole number has no more digits than are read. -/
def takeNumber? (cs : List Char) : Option (Token × List Char) := do
  let whole := cs.takeWhile isAsciiDigit
  if whole.head? = some '0' ∧ whole ≠ ['0'] then none
  else do
    let (fraction, rest) ← fraction? (cs.dropWhile isAsciiDigit)
    let (power, rest) ← exponent? rest
    if rest.head? = some '.' ∨ ends rest = false then none
    else if fraction = [] ∧ power = none then
      if whole.length ≤ Numeral.maxDigits then
        some (.literal (.int (Numeral.digitsValue whole)), rest)
      else none
    else
      let exponent := power.getD 0 - fraction.length
      some (.literal (.float (.ofDecimal false (Numeral.digitsValue (whole ++ fraction)) exponent)), rest)

def takeWord? (cs : List Char) : Option (Token × List Char) :=
  if ends (cs.dropWhile isNameChar) then
    some (.word (String.ofList (cs.takeWhile isNameChar)), cs.dropWhile isNameChar)
  else none

/-! Signs. -/

/-- The longest sign at the start. -/
def takeSign? : List Char → Option (Token × List Char)
  | '(' :: cs => some (.sign "(", cs)
  | ')' :: cs => some (.sign ")", cs)
  | ',' :: cs => some (.sign ",", cs)
  | '.' :: cs =>
    if cs.head?.any fun c => isAsciiDigit c || c == '.' then none else some (.sign ".", cs)
  | '=' :: '=' :: cs => some (.sign "==", cs)
  | '=' :: cs => some (.sign "=", cs)
  | '!' :: '=' :: cs => some (.sign "!=", cs)
  | '<' :: '=' :: cs => some (.sign "<=", cs)
  | '<' :: cs => if cs.head?.any (· ∈ ['<', '>']) then none else some (.sign "<", cs)
  | '>' :: '=' :: cs => some (.sign ">=", cs)
  | '>' :: cs => if cs.head? = some '>' then none else some (.sign ">", cs)
  | '-' :: cs => if cs.head?.any (· ∈ ['=', '>']) then none else some (.sign "-", cs)
  | _ => none

/-- The token at the start. -/
def takeToken? : List Char → Option (Token × List Char)
  | [] => none
  | c :: cs =>
    if c = '\'' ∨ c = '"' then takeText? c cs
    else if isAsciiDigit c then takeNumber? (c :: cs)
    else if isNameChar c then takeWord? (c :: cs)
    else takeSign? (c :: cs)

/-- The tokens of a line, with spaces between them passed over. -/
def tokens? (cs : List Char) : Option (List Token) :=
  match cs with
  | [] => some []
  | c :: rest =>
    if c = ' ' then tokens? rest
    else
      match takeToken? (c :: rest) with
      | none => none
      | some (t, more) =>
        if more.length ≤ rest.length then (tokens? more).map (t :: ·) else none
termination_by cs.length

example : tokens? "ops.f(n=-1.5e-07, s='it\\'s')".toList =
    some [.word "ops", .sign ".", .word "f", .sign "(", .word "n", .sign "=", .sign "-",
      .literal (.float (.ofDecimal false 15 (-8))), .sign ",", .word "s", .sign "=",
      .literal (.text "it's"), .sign ")"] := by decide +kernel

/-! Texts are read back. -/

variable {rest : List Char}

/-- A text between quotes is read, unless a third quote is behind two that hold nothing. -/
theorem takeText?_escapePoints (hq : q = '\'' ∨ q = '"') (hps : AreCodes ps)
    (hrest : rest.head? ≠ some q) :
    takeText? q (ps.flatMap (escapePoint q) ++ q :: rest) = some (.literal (literalOf ps), rest) := by
  have htwo : (ps.flatMap (escapePoint q) ++ q :: rest).take 2 ≠ [q, q] := by
    cases ps with
    | nil =>
      cases rest with
      | nil => simp
      | cons c rest => simpa using hrest
    | cons n ps =>
      obtain ⟨d, ds, hd, hne⟩ := exists_escapePoint_cons hq n
      rw [List.flatMap_cons, hd]
      intro h
      exact hne (List.cons.inj h).1
  rw [takeText?, if_neg htwo, points?_escapePoints hq hps]
  rfl

/-! Numbers and words are read back. -/

theorem not_isNameChar_of_ends (h : ends rest = true) : ∀ c ∈ rest.head?, isNameChar c = false := by
  intro c hc
  unfold ends at h
  rw [Option.mem_def.1 hc] at h
  simp only [Option.all_some, Bool.and_eq_true, Bool.not_eq_true'] at h
  exact h.1.1.1

theorem not_isAsciiDigit_of_ends (h : ends rest = true) :
    ∀ c ∈ rest.head?, isAsciiDigit c = false := by
  intro c hc
  by_contra hdigit
  have hname := isNameChar_of_isAsciiDigit (Bool.not_eq_false _ ▸ hdigit)
  rw [not_isNameChar_of_ends h c hc] at hname
  cases hname

theorem not_quote_of_ends (h : ends rest = true) (hq : q = '\'' ∨ q = '"') :
    rest.head? ≠ some q := by
  intro hc
  unfold ends at h
  rw [hc] at h
  rcases hq with rfl | rfl <;> exact absurd h (by decide)

/-- What comes next does not go on with a number, either. -/
def endsNumber (cs : List Char) : Bool := ends cs && cs.head? != some '.'

theorem fraction?_text (ht : t.WellFormed) (hrest : endsNumber rest = true) :
    fraction? (t.text ++ rest) = some (t.fraction, t.exponentText ++ rest) := by
  obtain ⟨hends, hpoint⟩ := Bool.and_eq_true_iff.1 hrest
  rw [Tail.text, Tail.fractionText, List.append_assoc]
  split
  · next hnil =>
    rw [List.isEmpty_iff.1 hnil, List.nil_append]
    have hhead : (t.exponentText ++ rest).head? ≠ some '.' := by
      unfold Tail.exponentText
      cases t.exponent with
      | none => simpa using hpoint
      | some e => simp
    unfold fraction?
    split
    · next h => exact absurd (congrArg List.head? h) hhead
    · rfl
  · next hne =>
    obtain ⟨htake, hdrop⟩ := span_append ht.fraction
      (Tail.exponentText_not_digit (not_isAsciiDigit_of_ends hends))
    rw [List.cons_append, fraction?]
    rw [htake, hdrop, if_neg (fun h => hne (List.isEmpty_iff.2 h))]

theorem exponent?_text (ht : t.WellFormed) (hrest : ends rest = true) :
    ∃ power : Option Int, exponent? (t.exponentText ++ rest) = some (power, rest) ∧
      power.getD 0 = t.power ∧ (power = none ↔ t.exponent = none) := by
  unfold Tail.exponentText Tail.power
  cases he : t.exponent with
  | none =>
    refine ⟨none, ?_, rfl, by simp⟩
    change exponent? rest = _
    unfold exponent?
    split
    · exact absurd (not_isNameChar_of_ends hrest 'e' rfl) (by decide)
    · rfl
  | some e =>
    obtain ⟨sign, ds⟩ := e
    obtain ⟨hsign, hne, hds⟩ := ht.exponent sign ds he
    obtain ⟨htake, hdrop⟩ := span_append hds (not_isAsciiDigit_of_ends hrest)
    have hread : exponent? ('e' :: sign :: (ds ++ rest)) = some (some (if sign = '-' then
        -(Numeral.digitsValue ds : Int) else Numeral.digitsValue ds), rest) := by
      rw [exponent?, htake, hdrop, if_neg hne]
      rcases hsign with rfl | rfl <;> rfl
    refine ⟨_, hread, ?_, by simp⟩
    simp

theorem takeNumber?_text {whole : List Char} (hwhole : IsWhole whole) (ht : t.WellFormed)
    (hrest : endsNumber rest = true) : takeNumber? (whole ++ (t.text ++ rest)) =
      if t.isEmpty then
        if whole.length ≤ Numeral.maxDigits then
          some (.literal (.int (Numeral.digitsValue whole)), rest)
        else none
      else some (.literal (.float (t.number false whole)), rest) := by
  obtain ⟨hends, hpoint⟩ := Bool.and_eq_true_iff.1 hrest
  have hbehind := Tail.text_not_digit (t := t) (not_isAsciiDigit_of_ends hends)
  obtain ⟨htake, hdrop⟩ := span_append hwhole.digits hbehind
  obtain ⟨power, hread, hpower, hnone⟩ := exponent?_text ht hends
  have hlead : ¬(whole.head? = some '0' ∧ whole ≠ ['0']) := by
    intro h
    exact hwhole.lead.elim h.2 (fun hne => hne h.1)
  have hstop : ¬(rest.head? = some '.' ∨ ends rest = false) := by
    simpa [hends] using hpoint
  have hempty : (t.fraction = [] ∧ power = none) ↔ t.isEmpty = true := by
    simp [Tail.isEmpty, hnone]
  unfold takeNumber?
  simp only [htake, hdrop, if_neg hlead, fraction?_text ht hrest, hread, Option.bind_eq_bind,
    Option.bind_some, if_neg hstop, hempty, hpower]
  rfl

/-! Pieces of a line. -/

/-- A piece is read as some tokens, and what is behind it is read on its own. -/
def Reads (piece : List Char) (ts : List Token) (rest : List Char) : Prop :=
  tokens? (piece ++ rest) = (tokens? rest).map (ts ++ ·)

variable {piece more : List Char} {ts us : List Token}

theorem reads_nil : Reads [] [] rest := by
  unfold Reads
  simp

theorem reads_space : Reads [' '] [] rest := by
  unfold Reads
  rw [List.singleton_append, tokens?, if_pos rfl]
  simp

theorem Reads.append (h : Reads piece ts (more ++ rest)) (hmore : Reads more us rest) :
    Reads (piece ++ more) (ts ++ us) rest := by
  unfold Reads at h hmore ⊢
  rw [List.append_assoc, h, hmore, Option.map_map]
  simp [Function.comp_def]

theorem Reads.tokens? (h : Reads piece ts []) : tokens? piece = some ts := by
  unfold Reads at h
  rw [List.append_nil] at h
  rw [h, Source.tokens?]
  simp

theorem reads_of_takeToken? {t : Token} (hc : c ≠ ' ')
    (h : takeToken? (c :: (piece ++ rest)) = some (t, rest)) : Reads (c :: piece) [t] rest := by
  unfold Reads
  rw [List.cons_append, tokens?, if_neg hc, h]
  dsimp only
  rw [if_pos (by simp)]
  rfl

theorem not_isAsciiDigit_of_isNameStart (h : Registry.isNameStart c = true) :
    isAsciiDigit c = false := by
  by_contra hdigit
  simp only [isAsciiDigit, Bool.not_eq_false, Bool.and_eq_true, decide_eq_true_eq] at hdigit
  simp only [Registry.isNameStart, isLetter, Bool.or_eq_true, Bool.and_eq_true, decide_eq_true_eq,
    beq_iff_eq] at h
  -- both kinds of letters, and the underscore, come after the digits
  have hhigh : c.toNat ≤ 57 := hdigit.2
  have hlow : 65 ≤ c.toNat := by
    rcases h with (⟨hl, -⟩ | ⟨hl, -⟩) | rfl
    · exact Nat.le_trans (by decide) hl
    · exact hl
    · decide
  omega

theorem reads_word {name : List Char} (hname : Registry.isName name = true)
    (hrest : ends rest = true) : Reads name [.word (String.ofList name)] rest := by
  obtain ⟨htake, hdrop⟩ :=
    span_append (Registry.isNameChar_of_isName hname) (not_isNameChar_of_ends hrest)
  cases name with
  | nil => cases hname
  | cons c name =>
    have hstart : Registry.isNameStart c = true := (Bool.and_eq_true_iff.1 hname).1
    have hne {d : Char} (hd : Registry.isNameStart d = false) : c ≠ d := by
      intro h
      rw [h, hd] at hstart
      cases hstart
    have hdigit : isAsciiDigit c = false := not_isAsciiDigit_of_isNameStart hstart
    have hchar : isNameChar c = true := Registry.isNameChar_of_isName hname c List.mem_cons_self
    apply reads_of_takeToken? (hne (by decide))
    rw [List.cons_append] at htake hdrop
    rw [takeToken?, if_neg (not_or.2 ⟨hne (by decide), hne (by decide)⟩), hdigit, hchar, takeWord?, htake,
      hdrop, if_pos hrest]
    rfl

theorem reads_name {name : String} (hname : Registry.isName name.toList = true)
    (hrest : ends rest = true) : Reads name.toList [.word name] rest := by
  have hread := reads_word hname hrest
  rwa [String.ofList_toList] at hread

theorem reads_minus (hrest : ∀ c ∈ rest.head?, c ∉ ['=', '>']) : Reads ['-'] [.sign "-"] rest := by
  apply reads_of_takeToken? (by decide)
  have hno : rest.head?.any (· ∈ ['=', '>']) = false := by
    cases hhead : rest.head? with
    | none => rfl
    | some c => exact decide_eq_false (hrest c hhead)
  change takeSign? ('-' :: rest) = _
  rw [takeSign?, hno]
  rfl

theorem reads_of_takeNumber? {ds : List Char} (hds : ds ≠ [])
    (hdigits : ∀ d ∈ ds.head?, isAsciiDigit d = true)
    (h : takeNumber? (ds ++ rest) = some (.literal l, rest)) : Reads ds [.literal l] rest := by
  cases ds with
  | nil => exact absurd rfl hds
  | cons d ds =>
    have hd : isAsciiDigit d = true := hdigits d rfl
    have hne {c : Char} (hc : isAsciiDigit c = false) : d ≠ c := by
      intro h
      rw [h, hc] at hd
      cases hd
    apply reads_of_takeToken? (hne (by decide))
    rw [takeToken?, if_neg (not_or.2 ⟨hne (by decide), hne (by decide)⟩), if_pos hd]
    exact h

/-! Literals. -/

def signTokens (negative : Bool) : List Token := if negative then [.sign "-"] else []

/-- The tokens of a literal. Numbers that are not finite have no digits: they are written as words. -/
def literalTokens : Literal → List Token
  | .int n => signTokens (n < 0) ++ [.literal (.int n.natAbs)]
  | .float (.finite negative m e) => signTokens negative ++ [.literal (.float (.finite false m e))]
  | .float (.infinite negative) => signTokens negative ++ [.word "inf"]
  | .float .nan => [.word "nan"]
  | .boolean b => [.word (Literal.truthWord b)]
  | l => [.literal l]

theorem reads_quotePoints (hps : AreCodes ps) (hrest : ends rest = true) :
    Reads (quotePoints ps) [.literal (literalOf ps)] rest := by
  have hq := quoteFor_eq (visible ps)
  have hspace : quoteFor (visible ps) ≠ ' ' := by
    rcases hq with h | h <;> rw [h] <;> decide
  apply reads_of_takeToken? hspace
  change takeToken? (_ :: (_ ++ [_] ++ rest)) = _
  rw [List.append_assoc, List.singleton_append, takeToken?, if_pos hq]
  exact takeText?_escapePoints hq hps (not_quote_of_ends hrest hq)

theorem literalOf_of_points? (hl : l.Canonical) (h : l.points? = some ps) : literalOf ps = l := by
  unfold literalOf
  cases l with
  | text s =>
    cases h
    rw [ofPoints?_points]
  | torn ps =>
    cases h
    rw [hl.2]
  | _ => cases h

theorem reads_signed (negative : Bool) (hc : c ∉ ['=', '>']) (h : Reads (c :: piece) ts rest) :
    Reads ((if negative then ['-'] else []) ++ (c :: piece)) (signTokens negative ++ ts) rest := by
  have hminus : Reads ['-'] [.sign "-"] (c :: piece ++ rest) := by
    apply reads_minus
    intro d hd
    cases hd
    exact hc
  cases negative with
  | false => exact h
  | true => exact hminus.append h

theorem reads_number {whole : List Char} (negative : Bool) (hwhole : IsWhole whole)
    (h : takeNumber? (whole ++ (t.text ++ rest)) = some (.literal l, rest)) :
    Reads ((if negative then ['-'] else []) ++ (whole ++ t.text)) (signTokens negative ++ [.literal l])
      rest := by
  cases whole with
  | nil => exact absurd rfl hwhole.ne_nil
  | cons d ds =>
    have hd : isAsciiDigit d = true := hwhole.digits d List.mem_cons_self
    apply reads_signed
    · intro hsign
      have hnot : ∀ c ∈ ['=', '>'], isAsciiDigit c = false := forall_mem_of_all (by decide)
      rw [hnot d hsign] at hd
      cases hd
    · rw [← List.append_assoc] at h
      apply reads_of_takeNumber? (List.cons_ne_nil _ _) _ h
      intro c hc
      cases hc
      exact hd

theorem reads_int {n : Int} (hn : (Literal.int n).Shown) (hrest : endsNumber rest = true) :
    Reads (toString n).toList (literalTokens (.int n)) rest := by
  have hwhole := Json.isWhole_toDigits n.natAbs
  have hlength : (Nat.toDigits 10 n.natAbs).length ≤ Numeral.maxDigits := by
    rw [Literal.Shown, Value.ofLiteral, Value.isShowable, decide_eq_true_eq] at hn
    unfold Value.tooLong at hn
    exact (Json.length_toDigits_le_iff (by decide)).2 hn
  have hread := takeNumber?_text (t := ⟨[], none⟩) hwhole ⟨by simp, by simp⟩ hrest
  rw [if_pos (show (Tail.mk [] none).isEmpty = true from rfl), if_pos hlength,
    Json.digitsValue_toDigits] at hread
  have hpiece := reads_number (decide (n < 0)) hwhole hread
  rw [Json.toList_toString_int]
  simpa [Tail.text, Tail.fractionText, Tail.exponentText, literalTokens] using hpiece

theorem reads_finite {negative : Bool} {m : Nat} {e : Int}
    (hx : (Binary64.finite negative m e).Canonical) (hrest : endsNumber rest = true) :
    Reads (Binary64.finite negative m e).text.toList (literalTokens (.float (.finite negative m e)))
      rest := by
  obtain ⟨whole, t, hwhole, ht, hne, htext, hnumber⟩ := Binary64.exists_text_number hx
  -- the sign is a token of its own, so the number is read without it
  have hunsigned : t.number false whole = .finite false m e := by
    cases negative with
    | false => exact hnumber
    | true =>
      have hopposite := congrArg Binary64.neg hnumber
      rw [Tail.number, Binary64.neg_ofDecimal, Binary64.neg_cancel] at hopposite
      exact hopposite
  have hread := takeNumber?_text hwhole ht hrest
  rw [hne, if_neg (by decide), hunsigned] at hread
  rw [htext]
  exact reads_number negative hwhole hread

/-- The text of every literal that can be written is read as its tokens. -/
theorem reads_code (hl : l.Canonical) (hshown : l.Shown) (hrest : endsNumber rest = true) :
    Reads l.code.toList (literalTokens l) rest := by
  have hends : ends rest = true := (Bool.and_eq_true_iff.1 hrest).1
  have hquoted {ps : List Nat} (h : l.points? = some ps) : Reads l.code.toList [.literal l] rest := by
    have hread := reads_quotePoints (Literal.areCodes_of_points? hl h) hends
    rwa [literalOf_of_points? hl h, ← Literal.code_of_points? h] at hread
  have hword (name : String) (hname : Registry.isName name.toList = true) :
      Reads name.toList [.word name] rest := reads_name hname hends
  cases l with
  | text s => exact hquoted rfl
  | torn ps => exact hquoted rfl
  | int n =>
    rw [Literal.code_int]
    exact reads_int hshown hrest
  | float x =>
    rw [Literal.code_float]
    cases x with
    | finite negative m e => exact reads_finite hl hrest
    | nan => exact hword "nan" (by decide)
    | infinite negative =>
      have hinf := hword "inf" (by decide)
      cases negative with
      | false => exact hinf
      | true => exact reads_signed true (by decide) hinf
  | boolean b =>
    rw [Literal.code_boolean]
    cases b <;> exact hword _ (by decide)

end Acceptance.Source

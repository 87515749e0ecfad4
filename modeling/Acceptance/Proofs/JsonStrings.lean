import Mathlib.Tactic.SplitIfs
import Acceptance.Json.Reader
import Acceptance.Json.Writer
/-!
Strings in JSON text. Every code point comes back from its escape, but two halves of a surrogate
pair that stand one after the other come back as the character that they make.
-/
namespace Acceptance.Json

variable {n position start fuel : Nat} {c : Char} {rest : List Char}

theorem hexValue?_hexDigit (n : Nat) : hexValue? (Text.hexDigit n) = some (n % 16) := by
  have hall : ∀ k < 16, hexValue? (Nat.digitChar k) = some k := by decide
  exact hall (n % 16) (Nat.mod_lt n (by decide))

/-- Four hexadecimal digits are read with whatever follows them. -/
theorem hex4?_hex (h : n < 0x10000) (c : Char) (rest : List Char) :
    hex4? (Text.hex 4 n ++ c :: rest) = some (n, c :: rest) := by
  have hvalue : (n / 16 / 16 / 16 % 16 * 16 + n / 16 / 16 % 16) * 256 +
      (n / 16 % 16 * 16 + n % 16) = n := by omega
  simp only [Text.hex, List.nil_append, List.cons_append, hex4?, hexValue?_hexDigit,
    Option.bind_eq_bind, Option.bind_some, hvalue]
  rfl

theorem secondHalf_unit {first : Nat} (hfirst : isHighSurrogate first = true) (hn : n < 0x10000) :
    secondHalf first (unitEscape n ++ c :: rest) position =
      if isLowSurrogate n then .ok (joinSurrogates first n, c :: rest, position + 6)
      else .ok (first, unitEscape n ++ c :: rest, position) := by
  have hhex := hex4?_hex hn c rest
  simp only [Text.hex, List.nil_append, List.cons_append] at hhex
  simp only [unitEscape, Text.hex, List.nil_append, List.cons_append, secondHalf, hfirst, hhex]

/-- A text that does not go on with the second half of a surrogate pair. -/
def NoLowHalf (cs : List Char) : Prop :=
  (∀ more, cs ≠ '\\' :: 'u' :: more) ∨
    ∃ n c rest, n < 0x10000 ∧ isLowSurrogate n = false ∧ cs = unitEscape n ++ c :: rest

theorem secondHalf_of_noLowHalf {first : Nat} {cs : List Char}
    (h : isHighSurrogate first = false ∨ NoLowHalf cs) :
    secondHalf first cs position = .ok (first, cs, position) := by
  by_cases hfirst : isHighSurrogate first = true
  · rcases h with h | h | ⟨n, c, rest, hn, hlow, rfl⟩
    · rw [hfirst] at h
      cases h
    · unfold secondHalf
      split
      · exact absurd rfl (h _)
      · rfl
    · simp [secondHalf_unit hfirst hn, hlow]
  · rw [Bool.not_eq_true] at hfirst
    simp [secondHalf, hfirst]

theorem stringTail_unit {acc : List Nat} (hn : n < 0x10000) :
    stringTail start (fuel + 1) acc ⟨unitEscape n ++ c :: rest, position⟩ =
      (secondHalf n (c :: rest) (position + 6) >>= fun (d, rest, position) =>
        stringTail start fuel (d :: acc) ⟨rest, position⟩) := by
  simp only [unitEscape, List.cons_append, stringTail, hex4?_hex hn]

theorem stringTail_simple {acc : List Nat} {e d : Char} (h : simpleEscape? e = some d) :
    stringTail start (fuel + 1) acc ⟨'\\' :: e :: rest, position⟩ =
      stringTail start fuel (d.toNat :: acc) ⟨rest, position + 2⟩ := by
  have hu : e ≠ 'u' := by
    rintro rfl
    cases h
  rw [stringTail]
  simp [h]

theorem isHighSurrogate_toNat (c : Char) : isHighSurrogate c.toNat = false := by
  have h := Text.isHalf_toNat c
  simp only [Text.isHalf, isHighSurrogate, Bool.and_eq_false_iff, decide_eq_false_iff_not] at h ⊢
  omega

/-- How a character is written inside quotes. -/
inductive EscapeShape (c : Char) : List Char → Prop
  | simple (e d : Char) (h : simpleEscape? e = some d) (hd : d.toNat = c.toNat) :
    EscapeShape c ['\\', e]
  | plain (hquote : c ≠ '"') (hslash : c ≠ '\\') (h : 0x1f < c.toNat) : EscapeShape c [c]
  | unit (h : c.toNat < 0x10000) : EscapeShape c (unitEscape c.toNat)
  | pair (h : 0x10000 ≤ c.toNat) : EscapeShape c
    (unitEscape (0xd800 + (c.toNat - 0x10000) / 0x400) ++
      unitEscape (0xdc00 + (c.toNat - 0x10000) % 0x400))

theorem escapeShape (c : Char) : EscapeShape c (escapeChar c) := by
  unfold escapeChar
  dsimp only
  split_ifs with hquote hn hr ht hb hf hplain hunit
  · rw [Bool.or_eq_true, decide_eq_true_eq, decide_eq_true_eq] at hquote
    rcases hquote with rfl | rfl <;> exact .simple _ _ rfl rfl
  · exact .simple _ '\n' rfl (by rw [hn])
  · exact .simple _ '\r' rfl (by rw [hr])
  · exact .simple _ '\t' rfl (by rw [ht])
  · exact .simple _ (Char.ofNat 8) rfl hb.symm
  · exact .simple _ (Char.ofNat 12) rfl hf.symm
  · simp only [Bool.or_eq_true, decide_eq_true_eq, not_or, Bool.and_eq_true] at hquote hplain
    exact .plain hquote.1 hquote.2 (by omega)
  · exact .unit hunit
  · exact .pair (by omega)

theorem toNat_lt (c : Char) : c.toNat < 0x110000 := by
  have h := c.valid
  simp only [UInt32.isValidChar, Nat.isValidChar] at h
  show c.val.toNat < 0x110000
  omega

/-- A character comes back from its escape. -/
theorem stringTail_char (c : Char) (start fuel position : Nat) (acc : List Nat) (e : Char)
    (rest : List Char) : ∃ next,
      stringTail start (fuel + 1) acc ⟨escapeChar c ++ e :: rest, position⟩ =
        stringTail start fuel (c.toNat :: acc) ⟨e :: rest, next⟩ := by
  have hshape := escapeShape c
  generalize escapeChar c = cs at hshape
  cases hshape with
  | simple a d h hd =>
    rw [← hd]
    exact ⟨_, stringTail_simple h⟩
  | plain hquote hslash h =>
    refine ⟨position + 1, ?_⟩
    rw [List.singleton_append, stringTail]
    split
    · next heq => cases heq
    · next heq => exact absurd (List.cons.inj heq).1 hquote
    · next heq => exact absurd (List.cons.inj heq).1 hslash
    · next heq => exact absurd (List.cons.inj heq).1 hslash
    · next heq => exact absurd (List.cons.inj heq).1 hslash
    · next heq =>
      obtain ⟨rfl, rfl⟩ := List.cons.inj heq
      rw [if_neg (by omega)]
  | unit h =>
    rw [stringTail_unit h, secondHalf_of_noLowHalf (.inl (isHighSurrogate_toNat c))]
    exact ⟨_, rfl⟩
  | pair h =>
    have hc := toNat_lt c
    generalize hm : c.toNat - 0x10000 = m
    have hhigh : isHighSurrogate (0xd800 + m / 0x400) = true := by
      simp only [isHighSurrogate, Bool.and_eq_true, decide_eq_true_eq]
      omega
    have hlow : isLowSurrogate (0xdc00 + m % 0x400) = true := by
      simp only [isLowSurrogate, Bool.and_eq_true, decide_eq_true_eq]
      omega
    have hjoin : joinSurrogates (0xd800 + m / 0x400) (0xdc00 + m % 0x400) = c.toNat := by
      unfold joinSurrogates
      omega
    refine ⟨position + 6 + 6, ?_⟩
    obtain ⟨d, ds, hunit⟩ : ∃ d ds, unitEscape (0xdc00 + m % 0x400) ++ e :: rest = d :: ds :=
      ⟨_, _, rfl⟩
    rw [List.append_assoc, hunit, stringTail_unit (by omega), ← hunit,
      secondHalf_unit hhigh (by omega), if_pos hlow, hjoin]
    rfl

/-- The code point that comes back for one by itself. -/
def pointBack (n : Nat) : Nat := if Text.isHalf n then n else (Char.ofNat n).toNat

/-- The code points that come back for some: halves of a surrogate pair are joined. -/
def rejoin : List Nat → List Nat
  | [] => []
  | [n] => [pointBack n]
  | n :: m :: ps =>
    if isHighSurrogate n && isLowSurrogate m then joinSurrogates n m :: rejoin ps
    else pointBack n :: rejoin (m :: ps)

theorem rejoin_cons {ps : List Nat}
    (h : isHighSurrogate n = false ∨ ∀ m ∈ ps.head?, isLowSurrogate m = false) :
    rejoin (n :: ps) = pointBack n :: rejoin ps := by
  cases ps with
  | nil => rfl
  | cons m ps =>
    have hpair : (isHighSurrogate n && isLowSurrogate m) = false := by
      rw [Bool.and_eq_false_iff]
      exact h.imp_right fun h => h m rfl
    rw [rejoin, hpair]
    rfl

theorem pointBack_toNat (c : Char) : pointBack c.toNat = c.toNat := by
  simp [pointBack, Text.isHalf_toNat]

theorem rejoin_points (s : String) : rejoin (Text.points s) = Text.points s := by
  unfold Text.points
  induction s.toList with
  | nil => rfl
  | cons c cs ih => rw [List.map_cons, rejoin_cons (.inl (isHighSurrogate_toNat c)), ih, pointBack_toNat]

theorem isHalf_of_surrogate (h : isHighSurrogate n = true ∨ isLowSurrogate n = true) :
    Text.isHalf n = true := by
  simp only [isHighSurrogate, isLowSurrogate, Text.isHalf, Bool.and_eq_true, decide_eq_true_eq] at *
  omega

theorem lt_of_isHalf (h : Text.isHalf n = true) : n < 0x10000 := by
  simp only [Text.isHalf, Bool.and_eq_true, decide_eq_true_eq] at h
  omega

theorem isLowSurrogate_toNat (c : Char) : isLowSurrogate c.toNat = false := by
  rw [← Bool.not_eq_true]
  intro h
  have hhalf := isHalf_of_surrogate (.inr h)
  rw [Text.isHalf_toNat] at hhalf
  cases hhalf

theorem noLowHalf_point {m : Nat} (h : isLowSurrogate m = false) (c : Char) (rest : List Char) :
    NoLowHalf (escapePoint m ++ c :: rest) := by
  unfold escapePoint
  split
  · next hhalf => exact .inr ⟨m, c, rest, lt_of_isHalf hhalf, h, rfl⟩
  · have hshape := escapeShape (Char.ofNat m)
    generalize Char.ofNat m = d at hshape
    generalize escapeChar d = cs at hshape
    cases hshape with
    | simple a d h hd =>
      refine .inl fun more heq => ?_
      cases heq
      cases h
    | plain hquote hslash h =>
      refine .inl fun more heq => ?_
      exact hslash (List.cons.inj heq).1
    | unit h => exact .inr ⟨_, c, rest, h, isLowSurrogate_toNat d, rfl⟩
    | pair h =>
      have hd := toNat_lt d
      rw [List.append_assoc]
      refine .inr ⟨_, _, _, by omega, ?_, rfl⟩
      simp only [isLowSurrogate, Bool.and_eq_false_iff, decide_eq_false_iff_not]
      omega

theorem stringTail_point (h : isHighSurrogate n = false ∨ NoLowHalf (c :: rest))
    (start fuel position : Nat) (acc : List Nat) : ∃ next,
      stringTail start (fuel + 1) acc ⟨escapePoint n ++ c :: rest, position⟩ =
        stringTail start fuel (pointBack n :: acc) ⟨c :: rest, next⟩ := by
  unfold escapePoint pointBack
  split
  · next hhalf =>
    rw [stringTail_unit (lt_of_isHalf hhalf), secondHalf_of_noLowHalf h]
    exact ⟨_, rfl⟩
  · exact stringTail_char _ start fuel position acc c rest

theorem escapePoint_ne_nil (n : Nat) : escapePoint n ≠ [] := by
  unfold escapePoint
  split
  · simp [unitEscape]
  · have hshape := escapeShape (Char.ofNat n)
    generalize escapeChar (Char.ofNat n) = cs at hshape
    cases hshape <;> simp [unitEscape]

theorem exists_escape_cons (ps : List Nat) (rest : List Char) :
    ∃ c cs, ps.flatMap escapePoint ++ '"' :: rest = c :: cs :=
  List.exists_cons_of_ne_nil (by simp)

theorem noLowHalf_escape {ps : List Nat} (h : ∀ m ∈ ps.head?, isLowSurrogate m = false)
    (rest : List Char) : NoLowHalf (ps.flatMap escapePoint ++ '"' :: rest) := by
  cases ps with
  | nil => exact .inl (by simp)
  | cons m ps =>
    obtain ⟨c, cs, hcs⟩ := exists_escape_cons ps rest
    rw [List.flatMap_cons, List.append_assoc, hcs]
    exact noLowHalf_point (h m rfl) c cs

/-- A string is read up to its closing quote. -/
theorem stringTail_points (ps : List Nat) (acc : List Nat) (position : Nat) (rest : List Char)
    (hfuel : (ps.flatMap escapePoint).length ≤ fuel) : ∃ next,
      stringTail start (fuel + 1) acc ⟨ps.flatMap escapePoint ++ '"' :: rest, position⟩ =
        .ok (.ofPoints (acc.reverse ++ rejoin ps), ⟨rest, next⟩) := by
  induction hlen : ps.length using Nat.strongRecOn generalizing ps fuel acc position with
  | ind k ih =>
    cases ps with
    | nil => exact ⟨position + 1, by simp [stringTail, rejoin]⟩
    | cons n ps =>
      have hn := List.length_pos_iff.2 (escapePoint_ne_nil n)
      rw [List.flatMap_cons, List.length_append] at hfuel
      obtain ⟨fuel, rfl⟩ := Nat.exists_eq_succ_of_ne_zero (show fuel ≠ 0 by omega)
      by_cases hpair : isHighSurrogate n = false ∨ ∀ m ∈ ps.head?, isLowSurrogate m = false
      · obtain ⟨c, cs, hcs⟩ := exists_escape_cons ps rest
        have hno : isHighSurrogate n = false ∨ NoLowHalf (c :: cs) := by
          rw [← hcs]
          exact hpair.imp_right fun h => noLowHalf_escape h rest
        obtain ⟨next, hstep⟩ := stringTail_point hno start (fuel + 1) position acc
        rw [List.flatMap_cons, List.append_assoc, hcs, hstep, ← hcs, rejoin_cons hpair]
        rw [List.length_cons] at hlen
        simpa using ih ps.length (by omega) ps (pointBack n :: acc) next (by omega) rfl
      · rw [not_or, Bool.not_eq_false] at hpair
        obtain ⟨hhigh, hnext⟩ := hpair
        obtain ⟨m, ps, rfl, hlow⟩ : ∃ m ps', ps = m :: ps' ∧ isLowSurrogate m = true := by
          cases ps with
          | nil => simp at hnext
          | cons m ps => exact ⟨m, ps, rfl, by simpa using hnext⟩
        have hescape {k : Nat} (hk : Text.isHalf k = true) : escapePoint k = unitEscape k := if_pos hk
        have hm := isHalf_of_surrogate (.inr hlow)
        have hn := isHalf_of_surrogate (.inl hhigh)
        obtain ⟨c, cs, hcs⟩ := exists_escape_cons ps rest
        obtain ⟨d, ds, hds⟩ : ∃ d ds, unitEscape m ++ c :: cs = d :: ds := ⟨_, _, rfl⟩
        have hrejoin : rejoin (n :: m :: ps) = joinSurrogates n m :: rejoin ps := by
          rw [rejoin, hhigh, hlow]
          rfl
        have hle : (ps.flatMap escapePoint).length ≤ fuel := by
          rw [List.flatMap_cons, List.length_append] at hfuel
          omega
        obtain ⟨next, hread⟩ := ih ps.length (by simp at hlen; omega) ps
          (joinSurrogates n m :: acc) (position + 6 + 6) hle rfl
        refine ⟨next, ?_⟩
        rw [List.flatMap_cons, List.flatMap_cons, List.append_assoc, List.append_assoc, hcs,
          hescape hm, hescape hn, hds, stringTail_unit (lt_of_isHalf hn), ← hds,
          secondHalf_unit hhigh (lt_of_isHalf hm), if_pos hlow, hrejoin, ← hcs]
        rw [List.reverse_cons, List.append_assoc] at hread
        exact hread

theorem readString_points (ps : List Nat) (rest : List Char) (position : Nat) : ∃ next,
    readString ⟨ps.flatMap escapePoint ++ '"' :: rest, position⟩ =
      .ok (.ofPoints (rejoin ps), ⟨rest, next⟩) := by
  refine stringTail_points ps [] position rest ?_
  rw [List.length_append]
  omega

theorem ofPoints_rejoin_points (s : String) : Value.ofPoints (rejoin (Text.points s)) = .text s := by
  rw [rejoin_points, Value.ofPoints, Text.ofPoints?_points]

end Acceptance.Json

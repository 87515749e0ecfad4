import Mathlib.Algebra.Group.Nat.Defs
import Acceptance.Proofs.JsonStrings
import Acceptance.Proofs.TextLines
/-!
Quoted source literals. Each code point can be read back from what is written for it, so a quoted text
shows where it ends and what it holds. None of it leaves the line.
-/
namespace Acceptance.Text

variable {c q : Char}

/-! Characters that stay on a line. -/

instance (cs : List Char) : Decidable (OneLine cs) :=
  decidable_of_iff ((cs.all fun c => !isBreak c) = true) (by simp [OneLine])

theorem oneLine_string_append {s t : String} :
    OneLine (s ++ t).toList ↔ OneLine s.toList ∧ OneLine t.toList := by
  rw [String.toList_append, oneLine_append]

/-- The characters that end a line, by number. -/
theorem mem_of_isBreak (h : isBreak c = true) :
    c.toNat ∈ [10, 11, 12, 13, 28, 29, 30, 0x85, 0x2028, 0x2029] := by
  simp only [isBreak, Bool.or_eq_true, Bool.and_eq_true, decide_eq_true_eq, beq_iff_eq] at h
  simp only [List.mem_cons, List.not_mem_nil, or_false]
  omega

theorem isBreak_of_isPrintable (h : isPrintable c = true) : isBreak c = false := by
  by_contra hbreak
  have hall : ∀ n ∈ [10, 11, 12, 13, 28, 29, 30, 0x85, 0x2028, 0x2029],
      inRuns false printableRuns n = false := by decide +kernel
  have hnot := hall _ (mem_of_isBreak (by simpa using hbreak))
  exact absurd (h.symm.trans hnot) (by decide)

theorem forall_mem_hex {P : Char → Prop} (h : ∀ k < 16, P (Nat.digitChar k)) (width n : Nat) :
    ∀ c ∈ hex width n, P c := by
  induction width generalizing n with
  | zero => simp [hex]
  | succ width ih =>
    rw [hex, List.forall_mem_append]
    exact ⟨ih _, List.forall_mem_singleton.2 (h _ (Nat.mod_lt n (by decide)))⟩

theorem oneLine_hex (width n : Nat) : OneLine (hex width n) := forall_mem_hex (by decide) width n

theorem oneLine_escapeChar (hq : isBreak q = false) (c : Char) : OneLine (escapeChar q c) := by
  have hcode (letter : Char) (hletter : isBreak letter = false) (width : Nat) :
      OneLine ('\\' :: letter :: hex width c.toNat) :=
    oneLine_cons.2 ⟨rfl, oneLine_cons.2 ⟨hletter, oneLine_hex _ _⟩⟩
  unfold escapeChar
  split_ifs with hown hn hr ht hprint hlow hmid
  · have hc : isBreak c = false := by
      rcases Bool.or_eq_true_iff.1 hown with h | h
      · rwa [of_decide_eq_true h]
      · rw [of_decide_eq_true h]
        rfl
    exact oneLine_cons.2 ⟨rfl, List.forall_mem_singleton.2 hc⟩
  · decide
  · decide
  · decide
  · exact List.forall_mem_singleton.2 (isBreak_of_isPrintable hprint)
  · exact hcode 'x' rfl 2
  · exact hcode 'u' rfl 4
  · exact hcode 'U' rfl 8

theorem quoteFor_eq (cs : List Char) : quoteFor cs = '\'' ∨ quoteFor cs = '"' := by
  unfold quoteFor
  split
  · exact .inr rfl
  · exact .inl rfl

theorem oneLine_quotePoints (ps : List Nat) : OneLine (quotePoints ps) := by
  have hq : isBreak (quoteFor (visible ps)) = false := by
    rcases quoteFor_eq (visible ps) with h | h <;> rw [h] <;> rfl
  unfold quotePoints
  refine oneLine_append.2 ⟨oneLine_cons.2 ⟨hq, ?_⟩, List.forall_mem_singleton.2 hq⟩
  refine List.forall_mem_flatMap.2 fun n _ => ?_
  unfold escapePoint
  split
  · exact oneLine_cons.2 ⟨rfl, oneLine_cons.2 ⟨rfl, oneLine_hex 4 n⟩⟩
  · exact oneLine_escapeChar hq _

theorem oneLine_quoted (s : String) : OneLine (quoted s).toList := by
  rw [← quotedPoints_points, quotedPoints, String.toList_ofList]
  exact oneLine_quotePoints _

/-! Reading hexadecimal digits back. -/

/-- The number that `width` hexadecimal digits add to what was read before them. -/
def readHex : Nat → Nat → List Char → Option (Nat × List Char)
  | 0, n, cs => some (n, cs)
  | _ + 1, _, [] => none
  | width + 1, n, c :: cs => do readHex width (16 * n + (← Json.hexValue? c)) cs

theorem readHex_add (v w n : Nat) (cs : List Char) :
    readHex (v + w) n cs = (readHex v n cs).bind fun (m, ds) => readHex w m ds := by
  induction v generalizing n cs with
  | zero => simp [readHex]
  | succ v ih =>
    rw [Nat.add_right_comm]
    cases cs with
    | nil => rfl
    | cons c cs =>
      rw [readHex, readHex]
      cases Json.hexValue? c with
      | none => rfl
      | some d => exact ih _ _

theorem readHex_hex (width n k : Nat) (rest : List Char) :
    readHex width k (hex width n ++ rest) = some (k * 16 ^ width + n % 16 ^ width, rest) := by
  induction width generalizing n rest with
  | zero => simp [readHex, hex, Nat.mod_one]
  | succ width ih =>
    have hmod : n % 16 ^ (width + 1) = n % 16 + 16 * (n / 16 % 16 ^ width) := by
      rw [Nat.pow_succ, Nat.mul_comm, Nat.mod_mul]
    have hvalue : 16 * (k * 16 ^ width + n / 16 % 16 ^ width) + n % 16 =
        k * 16 ^ (width + 1) + n % 16 ^ (width + 1) := by
      rw [hmod, Nat.pow_succ, ← Nat.mul_assoc]
      omega
    rw [hex, List.append_assoc, List.singleton_append, readHex_add, ih]
    simp only [Option.bind_some, readHex, Json.hexValue?_hexDigit, Option.bind_eq_bind, hvalue]

/-- Code points that texts can hold. -/
def AreCodes (ps : List Nat) : Prop := ∀ n ∈ ps, n < 0x110000

theorem toNat_ofNat {n : Nat} (h : n.isValidChar) : (Char.ofNat n).toNat = n := by
  rw [Char.ofNat, dif_pos h]
  rfl

/-! No escape starts with the closing quote. -/

theorem exists_escapeChar_cons (hq : q = '\'' ∨ q = '"') (c : Char) :
    ∃ d ds, escapeChar q c = d :: ds ∧ d ≠ q := by
  have hslash : '\\' ≠ q := by
    rcases hq with rfl | rfl <;> decide
  unfold escapeChar
  split_ifs with hown hn hr ht hprint hlow hmid
  · exact ⟨_, _, rfl, hslash⟩
  · exact ⟨_, _, rfl, hslash⟩
  · exact ⟨_, _, rfl, hslash⟩
  · exact ⟨_, _, rfl, hslash⟩
  · exact ⟨c, [], rfl, fun hc => hown (by simp [hc])⟩
  · exact ⟨_, _, rfl, hslash⟩
  · exact ⟨_, _, rfl, hslash⟩
  · exact ⟨_, _, rfl, hslash⟩

theorem exists_escapePoint_cons (hq : q = '\'' ∨ q = '"') (n : Nat) :
    ∃ d ds, escapePoint q n = d :: ds ∧ d ≠ q := by
  unfold escapePoint
  split
  · refine ⟨_, _, rfl, ?_⟩
    rcases hq with rfl | rfl <;> decide
  · exact exists_escapeChar_cons hq _

end Acceptance.Text

namespace Acceptance.Source

open Text

variable {c q : Char} {ps : List Nat}

/-! Reading a text up to its closing quote. -/

/-- The code point that a character behind a backslash stands for. -/
def escape? : Char → Option Nat
  | 'a' => some 7
  | 'b' => some 8
  | 't' => some 9
  | 'n' => some 10
  | 'v' => some 11
  | 'f' => some 12
  | 'r' => some 13
  | '"' => some 34
  | '\'' => some 39
  | '\\' => some 92
  | _ => none

/-- The number of hexadecimal digits that a character behind a backslash asks for. -/
def width? : Char → Option Nat
  | 'x' => some 2
  | 'u' => some 4
  | 'U' => some 8
  | _ => none

/-- A code point that is told behind a backslash. -/
def escaped? (c : Char) (cs : List Char) : Option (Nat × List Char) :=
  match escape? c with
  | some n => some (n, cs)
  | none => do
    let (n, rest) ← readHex (← width? c) 0 cs
    if n < 0x110000 then some (n, rest) else none

/-- The first code point of a text. -/
def point? : List Char → Option (Nat × List Char)
  | '\\' :: c :: cs => escaped? c cs
  | c :: cs => if c ∈ ['\\', '\n', '\r', '\x00'] then none else some (c.toNat, cs)
  | [] => none

/-- The code points of a text up to its closing quote, and what is behind it. -/
def points? (quote : Char) (cs : List Char) : Option (List Nat × List Char) :=
  match cs with
  | [] => none
  | c :: rest =>
    if c = quote then some ([], rest)
    else
      match point? (c :: rest) with
      | none => none
      | some (n, more) =>
        if more.length ≤ rest.length then
          (points? quote more).map fun (ns, after) => (n :: ns, after)
        else none
termination_by cs.length

theorem escaped?_hex (c : Char) (width : Nat) {n : Nat} (hc : escape? c = none) (hwidth : width? c = some width)
    (hn : n < 16 ^ width) (hcode : n < 0x110000) (rest : List Char) :
    escaped? c (hex width n ++ rest) = some (n, rest) := by
  unfold escaped?
  rw [hc, hwidth]
  simp only [Option.bind_eq_bind, Option.bind_some, readHex_hex, Nat.zero_mul, Nat.zero_add,
    Nat.mod_eq_of_lt hn, if_pos hcode]

theorem point?_plain (hc : c ∉ ['\\', '\n', '\r', '\x00']) (cs : List Char) :
    point? (c :: cs) = some (c.toNat, cs) := by
  unfold point?
  split
  · next h =>
    rw [(List.cons.inj h).1] at hc
    exact absurd List.mem_cons_self hc
  · next h =>
    obtain ⟨rfl, rfl⟩ := List.cons.inj h
    exact if_neg hc
  · next h => cases h

theorem point?_escapeChar (hq : q = '\'' ∨ q = '"') (rest : List Char) :
    point? (escapeChar q c ++ rest) = some (c.toNat, rest) := by
  have hvalid : c.toNat < 0x110000 := Json.toNat_lt c
  unfold escapeChar
  split_ifs with hown hn hr ht hprint hlow hmid
  · have hc : c = '\'' ∨ c = '"' ∨ c = '\\' := by
      rcases Bool.or_eq_true_iff.1 hown with h | h
      · rw [of_decide_eq_true h]
        exact hq.imp_right .inl
      · exact .inr (.inr (of_decide_eq_true h))
    rcases hc with rfl | rfl | rfl <;> rfl
  · rw [hn]
    rfl
  · rw [hr]
    rfl
  · rw [ht]
    rfl
  · -- what is printed as it is, is none of the characters that a text cannot hold
    have hslash : c ≠ '\\' := fun h => hown (by simp [h])
    have hnull : c ≠ '\x00' := by
      intro h
      rw [h] at hprint
      exact absurd hprint (by decide +kernel)
    apply point?_plain
    simp [hslash, hnull, hn, hr]
  · exact escaped?_hex 'x' 2 rfl rfl hlow hvalid rest
  · exact escaped?_hex 'u' 4 rfl rfl hmid hvalid rest
  · exact escaped?_hex 'U' 8 rfl rfl (Nat.lt_trans hvalid (by decide)) hvalid rest

theorem point?_escapePoint (hq : q = '\'' ∨ q = '"') {n : Nat} (hn : n < 0x110000)
    (rest : List Char) : point? (escapePoint q n ++ rest) = some (n, rest) := by
  unfold escapePoint
  split
  · next hhalf =>
    have hsmall : n < 16 ^ 4 := by
      simp only [isHalf, Bool.and_eq_true, decide_eq_true_eq] at hhalf
      omega
    exact escaped?_hex 'u' 4 rfl rfl hsmall hn rest
  · next hwhole =>
    have hvalid : n.isValidChar := by
      simp only [isHalf, Bool.and_eq_true, decide_eq_true_eq] at hwhole
      rw [Nat.isValidChar]
      omega
    rw [point?_escapeChar hq, toNat_ofNat hvalid]

theorem points?_escapePoints (hq : q = '\'' ∨ q = '"') (hps : AreCodes ps) (rest : List Char) :
    points? q (ps.flatMap (escapePoint q) ++ q :: rest) = some (ps, rest) := by
  induction ps with
  | nil =>
    rw [List.flatMap_nil, List.nil_append, points?, if_pos rfl]
  | cons n ps ih =>
    obtain ⟨hn, hlater⟩ := List.forall_mem_cons.1 hps
    obtain ⟨d, ds, hd, hne⟩ := exists_escapePoint_cons hq n
    have hpoint := point?_escapePoint hq hn (ps.flatMap (escapePoint q) ++ q :: rest)
    rw [List.flatMap_cons, List.append_assoc]
    rw [hd, List.cons_append] at hpoint ⊢
    rw [points?, if_neg hne, hpoint]
    dsimp only
    rw [if_pos (by simp), ih hlater]
    rfl

end Acceptance.Source

namespace Acceptance.Text

/-! A quoted text shows where it ends. -/

theorem quotePoints_append_inj {ps qs : List Nat} (hps : AreCodes ps) (hqs : AreCodes qs)
    {x y : List Char} (h : quotePoints ps ++ x = quotePoints qs ++ y) : ps = qs ∧ x = y := by
  simp only [quotePoints, List.cons_append, List.append_assoc, List.cons.injEq] at h
  obtain ⟨hquote, h⟩ := h
  have hread := congrArg (Source.points? (quoteFor (visible ps))) h
  rw [← hquote, Source.points?_escapePoints (quoteFor_eq _) hps,
    Source.points?_escapePoints (quoteFor_eq _) hqs] at hread
  exact Prod.mk.inj (Option.some.inj hread)

theorem areCodes_points (s : String) : AreCodes (points s) :=
  List.forall_mem_map.2 fun c _ => Json.toNat_lt c

theorem points_injective {s t : String} (h : points s = points t) : s = t := by
  have hsame := congrArg ofPoints? h
  rw [ofPoints?_points, ofPoints?_points] at hsame
  exact Option.some.inj hsame

end Acceptance.Text

import Acceptance.Proofs.ReadyScenarios
import Acceptance.Proofs.QuotedText
import Acceptance.Proofs.Reloading
import Acceptance.Proofs.Rendering
import Acceptance.Proofs.Spacing
/-!
Lines of test modules. Nothing that a spec or a registry says breaks a line that is emitted, so the
lines of a module's text are the lines that were put together, and each test stands where it was
placed.
-/
namespace Acceptance

variable {s : String} {c : Char} {n : Nat}

/-! Texts on one line. -/

variable {cs : List Char}

namespace Text

theorem OneLine.normalize (h : OneLine s.toList) : OneLine (normalize s).toList := by
  rw [Text.normalize, String.toList_ofList]
  intro c hc
  rcases mem_of_mem_collapse ((trim_isInfix _).subset hc) with hc | rfl
  · exact h c hc
  · rfl

/-- All of ASCII from the space on stays on the line. -/
theorem isBreak_of_plain (hlow : 32 ≤ c.toNat) (hhigh : c.toNat < 127) : isBreak c = false := by
  by_contra hbreak
  have hmem := mem_of_isBreak (c := c) (by simpa using hbreak)
  simp only [List.mem_cons, List.not_mem_nil, or_false] at hmem
  omega

theorem isBreak_of_isNameChar (h : Spec.isNameChar c = true) : isBreak c = false := by
  have hrange := toNat_of_isNameChar h
  exact isBreak_of_plain (by omega) (by omega)

theorem oneLine_of_isName {name : List Char} (h : Registry.isName name = true) : OneLine name :=
  fun c hc => isBreak_of_isNameChar (Registry.isNameChar_of_isName h c hc)

/-- The parts of a text, each with the separator before it, are the text with a separator before it. -/
theorem cons_eq_flatMap_splitAt (sep : Char) (cs : List Char) :
    sep :: cs = (splitAt sep cs).flatMap (sep :: ·) := by
  induction cs with
  | nil => rfl
  | cons c cs ih =>
    rw [splitAt]
    split
    · next hc => rw [hc, List.flatMap_cons, ← ih, List.singleton_append]
    · cases hparts : splitAt sep cs with
      | nil =>
        rw [hparts] at ih
        cases ih
      | cons l ls =>
        rw [hparts, List.flatMap_cons] at ih
        rw [(List.cons.inj ih).2, List.flatMap_cons]
        rfl

/-- Every character is a separator or in a part. -/
theorem eq_or_mem_splitAt (sep : Char) (h : c ∈ cs) :
    c = sep ∨ ∃ part ∈ splitAt sep cs, c ∈ part := by
  have hmem : c ∈ (splitAt sep cs).flatMap (sep :: ·) :=
    cons_eq_flatMap_splitAt sep cs ▸ List.mem_cons_of_mem sep h
  obtain ⟨part, hpart, hc⟩ := List.mem_flatMap.1 hmem
  exact (List.mem_cons.1 hc).imp_right fun hc => ⟨part, hpart, hc⟩

/-- Characters that words and numbers are written with. -/
def IsBare (c : Char) : Prop := Spec.isNameChar c = true ∨ c = '-' ∨ c = '+' ∨ c = '.'

instance : DecidablePred IsBare := fun c =>
  inferInstanceAs (Decidable (Spec.isNameChar c = true ∨ c = '-' ∨ c = '+' ∨ c = '.'))

theorem isBreak_of_isBare (h : IsBare c) : isBreak c = false := by
  rcases h with h | rfl | rfl | rfl
  · exact isBreak_of_isNameChar h
  · rfl
  · rfl
  · rfl

theorem isBare_of_isDotted (h : Registry.isDotted s = true) : ∀ c ∈ s.toList, IsBare c := by
  intro c hc
  rcases eq_or_mem_splitAt '.' hc with rfl | ⟨part, hpart, hc⟩
  · exact .inr (.inr (.inr rfl))
  · exact .inl (Registry.isNameChar_of_isName (List.all_eq_true.1 h part hpart) c hc)

theorem oneLine_of_isDotted (h : Registry.isDotted s = true) : OneLine s.toList :=
  fun c hc => isBreak_of_isBare (isBare_of_isDotted h c hc)

theorem isNameChar_of_isAsciiDigit (h : Json.isAsciiDigit c = true) : Spec.isNameChar c = true := by
  simp only [Json.isAsciiDigit, Bool.and_eq_true, decide_eq_true_eq] at h
  simp [Spec.isNameChar, h]

theorem isBare_of_isAsciiDigit (h : Json.isAsciiDigit c = true) : IsBare c :=
  .inl (isNameChar_of_isAsciiDigit h)

theorem isBare_toDigits : ∀ c ∈ Nat.toDigits 10 n, IsBare c :=
  fun _ hc => isBare_of_isAsciiDigit (Json.isAsciiDigit_of_mem_toDigits hc)

theorem oneLine_toDigits (n : Nat) : OneLine (Nat.toDigits 10 n) :=
  fun c hc => isBreak_of_isBare (isBare_toDigits c hc)

theorem toList_suffixed (s : String) (n : Nat) :
    s!"{s}_{n}".toList = s.toList ++ '_' :: Nat.toDigits 10 n := by
  rw [String.toList_append, String.toList_append, List.append_assoc]
  exact congrArg (s.toList ++ '_' :: ·) Nat.toList_repr

theorem suffixed_ne (s : String) (n : Nat) : s!"{s}_{n}" ≠ s := by
  intro h
  have hlength := congrArg (fun s => s.toList.length) h
  simp only [toList_suffixed, List.length_append, List.length_cons] at hlength
  omega

/-- The digits behind the last underscore are the number, and the rest is the name. -/
theorem suffixed_inj {t : String} {m : Nat} (h : s!"{s}_{m}" = s!"{t}_{n}") : s = t ∧ m = n := by
  have hspan (s : String) (n : Nat) :=
    span_append
      (show ∀ d ∈ (Nat.toDigits 10 n).reverse, Json.isAsciiDigit d = true from
        fun d hd => Json.isAsciiDigit_of_mem_toDigits (List.mem_reverse.1 hd))
      (show ∀ c ∈ ('_' :: s.toList.reverse).head?, Json.isAsciiDigit c = false from
        fun c hc => Option.some.inj hc ▸ rfl)
  have hlist := congrArg (fun s => s.toList.reverse) h
  simp only [toList_suffixed, List.reverse_append, List.reverse_cons, List.append_assoc,
    List.singleton_append] at hlist
  have hdigits := congrArg (List.takeWhile Json.isAsciiDigit) hlist
  have hname := congrArg (List.dropWhile Json.isAsciiDigit) hlist
  rw [(hspan s m).1, (hspan t n).1, List.reverse_inj] at hdigits
  rw [(hspan s m).2, (hspan t n).2, List.cons_inj_right, List.reverse_inj] at hname
  have hvalue := congrArg Numeral.digitsValue hdigits
  rw [Json.digitsValue_toDigits, Json.digitsValue_toDigits] at hvalue
  exact ⟨String.toList_inj.1 hname, hvalue⟩

end Text

open Text

theorem isBare_int (n : Int) : ∀ c ∈ (toString n).toList, IsBare c := by
  rw [Json.toList_toString_int]
  refine List.forall_mem_append.2 ⟨?_, isBare_toDigits⟩
  split
  · exact List.forall_mem_singleton.2 (.inr (.inl rfl))
  · exact List.forall_mem_nil _

theorem Json.Tail.isBare_text {t : Json.Tail} (h : t.WellFormed) : ∀ c ∈ t.text, IsBare c := by
  have hfraction : ∀ c ∈ t.fractionText, IsBare c := by
    unfold fractionText
    split
    · exact List.forall_mem_nil _
    · exact List.forall_mem_cons.2
        ⟨.inr (.inr (.inr rfl)), fun c hc => isBare_of_isAsciiDigit (h.fraction c hc)⟩
  have hexponent : ∀ c ∈ t.exponentText, IsBare c := by
    unfold exponentText
    cases he : t.exponent with
    | none => exact List.forall_mem_nil _
    | some e =>
      obtain ⟨sign, ds⟩ := e
      obtain ⟨hsign, -, hds⟩ := h.exponent sign ds he
      refine List.forall_mem_cons.2 ⟨.inl rfl, List.forall_mem_cons.2
        ⟨.inr (hsign.imp_right .inl), fun c hc => isBare_of_isAsciiDigit (hds c hc)⟩⟩
  exact List.forall_mem_append.2 ⟨hfraction, hexponent⟩

theorem isBare_float (x : Binary64) : ∀ c ∈ x.text.toList, IsBare c := by
  cases x with
  | nan => simp [Binary64.text, IsBare, Spec.isNameChar, Spec.isLetter]
  | infinite negative =>
    cases negative <;> simp [Binary64.text, IsBare, Spec.isNameChar, Spec.isLetter]
  | finite negative m e =>
    obtain ⟨whole, t, hwhole, ht, -, htext⟩ := Json.exists_number_eq negative m e
    refine htext ▸ List.forall_mem_append.2 ⟨?_, List.forall_mem_append.2
      ⟨fun c hc => isBare_of_isAsciiDigit (hwhole.digits c hc), Json.Tail.isBare_text ht⟩⟩
    split
    · exact List.forall_mem_singleton.2 (.inr (.inl rfl))
    · exact List.forall_mem_nil _

theorem oneLine_literal (l : Literal) : OneLine (Value.ofLiteral l).literal.toList := by
  unfold Value.literal
  cases l with
  | text s => simpa [Value.ofLiteral, Value.literalIn] using oneLine_quoted s
  | torn ps => simpa [Value.ofLiteral, Value.literalIn, quotedPoints] using oneLine_quotePoints ps
  | int n =>
    rw [Value.ofLiteral, Value.literalIn]
    exact fun c hc => isBreak_of_isBare (isBare_int n c hc)
  | float x =>
    rw [Value.ofLiteral, Value.literalIn]
    exact fun c hc => isBreak_of_isBare (isBare_float x c hc)
  | boolean b => cases b <;> simp only [Value.ofLiteral, Value.literalIn] <;> decide

namespace Emission

open Plan

/-! Names of tests. -/

/-- A run of slug characters. -/
structure IsRun (run : List Char) : Prop where
  ne_nil : run ≠ []
  slug : ∀ c ∈ run, isSlugChar c = true

theorem isRun_of_mem_slugRuns (cs : List Char) : ∀ run ∈ slugRuns cs, IsRun run := by
  fun_induction slugRuns cs with
  | case1 => exact List.forall_mem_nil _
  | case2 c hc => exact List.forall_mem_singleton.2 ⟨by simp, List.forall_mem_singleton.2 hc⟩
  | case3 c hc d cs _ hruns _ =>
    rw [hruns]
    exact List.forall_mem_singleton.2 ⟨by simp, List.forall_mem_singleton.2 hc⟩
  | case4 c hc d cs _ r rs hruns ih =>
    rw [hruns] at ih ⊢
    obtain ⟨hr, hrs⟩ := List.forall_mem_cons.1 ih
    exact List.forall_mem_cons.2 ⟨⟨by simp, List.forall_mem_cons.2 ⟨hc, hr.slug⟩⟩, hrs⟩
  | case5 c hc d cs _ ih =>
    exact List.forall_mem_cons.2 ⟨⟨by simp, List.forall_mem_singleton.2 hc⟩, ih⟩
  | case6 c cs _ ih => exact ih

theorem toNat_of_isSlugChar (h : isSlugChar c = true) :
    97 ≤ c.toNat ∧ c.toNat ≤ 122 ∨ 48 ≤ c.toNat ∧ c.toNat ≤ 57 := by
  simpa [isSlugChar, Char.le_def, UInt32.le_iff_toNat_le] using h

/-- A character that names of modules and tests are made of. -/
def IsNamePart (c : Char) : Prop := isSlugChar c = true ∨ c = '_'

theorem isNamePart_underscored (s : String) : ∀ c ∈ (underscored s).toList, IsNamePart c := by
  refine Json.forall_mem_intercalate (fun c hc => .inr (List.mem_singleton.1 hc)) ?_
  refine List.forall_mem_map.2 fun run hrun c hc => .inl ?_
  rw [String.toList_ofList] at hc
  exact (isRun_of_mem_slugRuns _ run hrun).slug c hc

theorem isBreak_of_isNamePart (h : IsNamePart c) : isBreak c = false := by
  rcases h with h | rfl
  · have hrange := toNat_of_isSlugChar h
    exact isBreak_of_plain (by omega) (by omega)
  · rfl

/-- A slug as it stands in the name of a test. -/
structure IsSlug (cs : List Char) : Prop where
  pos : 1 ≤ cs.length
  short : cs.length ≤ 60
  parts : ∀ c ∈ cs, IsNamePart c
  ending : cs.getLast? ≠ some '_'

theorem isSlug_testSlug (text : String) : IsSlug (testSlug text).toList := by
  unfold testSlug
  dsimp only
  split
  next =>
    have hletters : "scenario".toList.all isSlugChar = true := by decide
    exact ⟨by decide, by decide, fun c hc => .inl (List.all_eq_true.1 hletters c hc), by decide⟩
  next hne =>
    rw [String.toList_ofList]
    change ¬(List.rdropWhile (· == '_') _).isEmpty = true at hne
    change IsSlug (List.rdropWhile (· == '_') _)
    have hkept := List.rdropWhile_prefix (· == '_') ((underscored text).toList.take maxSlugLength)
    have hne := mt List.isEmpty_iff.2 hne
    refine ⟨List.length_pos_of_ne_nil hne, ?_, fun c hc => ?_, fun hlast => ?_⟩
    · exact Nat.le_trans hkept.length_le (List.length_take_le ..)
    · exact isNamePart_underscored text c (List.mem_of_mem_take (hkept.subset hc))
    · have hstop := List.rdropWhile_last_not (· == '_') _ hne
      rw [List.getLast?_eq_some_getLast hne] at hlast
      exact hstop (beq_iff_eq.2 (Option.some.inj hlast))

theorem oneLine_testSlug (text : String) : OneLine (testSlug text).toList :=
  fun c hc => isBreak_of_isNamePart ((isSlug_testSlug text).parts c hc)

theorem freshName_mem_numbered (taken : List String) (name : String) :
    freshName taken name ∈ numbered name taken.length := by
  unfold freshName
  cases hfind : (numbered name taken.length).find? (!taken.contains ·) with
  | none => exact List.mem_cons_self
  | some found => exact List.mem_of_find?_eq_some hfind

theorem oneLine_of_mem_numbered {name : String} (h : OneLine name.toList) (count : Nat) :
    ∀ n ∈ numbered name count, OneLine n.toList := by
  refine List.forall_mem_cons.2 ⟨h, List.forall_mem_map.2 fun i _ => ?_⟩
  refine oneLine_string_append.2 ⟨oneLine_string_append.2 ⟨h, by decide⟩, ?_⟩
  exact Nat.toList_repr ▸ oneLine_toDigits (i + 2)

theorem nodup_numbered (name : String) (count : Nat) : (numbered name count).Nodup := by
  refine List.nodup_cons.2 ⟨fun hmem => ?_, List.nodup_range.map fun i j hij => ?_⟩
  · obtain ⟨i, -, hi⟩ := List.mem_map.1 hmem
    exact suffixed_ne _ _ hi
  · exact Nat.add_right_cancel (suffixed_inj hij).2

/-- The name is new, since there are more numbered names than taken ones. -/
theorem freshName_not_mem (taken : List String) (name : String) : freshName taken name ∉ taken := by
  have hfree : ∃ n ∈ numbered name taken.length, (!taken.contains n) = true := by
    by_contra hnone
    have hsub : numbered name taken.length ⊆ taken := by
      intro n hn
      by_contra hnot
      exact hnone ⟨n, hn, by simpa using hnot⟩
    have hle := (List.subperm_of_subset (nodup_numbered name taken.length) hsub).length_le
    simp only [numbered, List.length_cons, List.length_map, List.length_range] at hle
    omega
  obtain ⟨found, hfound⟩ := Option.isSome_iff_exists.1 (List.find?_isSome.2 hfree)
  have hnew := List.find?_some hfound
  unfold freshName
  rw [hfound]
  simpa using hnew

/-! Code of steps. -/

/-- The line ends with a character that is not blank. -/
def EndsBare (line : String) : Prop := ∃ cs c, line.toList = cs ++ [c] ∧ isBlank c = false

theorem EndsBare.append {line : String} (h : EndsBare line) (before : String) :
    EndsBare (before ++ line) := by
  obtain ⟨cs, c, hline, hc⟩ := h
  refine ⟨before.toList ++ cs, c, ?_, hc⟩
  rw [String.toList_append, hline, List.append_assoc]

theorem endsBare_quoted (s : String) : EndsBare (quoted s) := by
  refine ⟨_, quoteFor s.toList, String.toList_ofList, ?_⟩
  rcases quoteFor_eq s.toList with h | h <;> rw [h] <;> rfl

theorem endsBare_call (operation : Value) (result : Option String) (args : List StoredParameter) :
    EndsBare (call operation result args) :=
  EndsBare.append ⟨[], ')', rfl, rfl⟩ _

theorem oneLine_call {operation : String} (hoperation : OneLine operation.toList)
    {result : Option String} (hresult : ∀ name ∈ result, OneLine name.toList)
    {args : List Parameter} (hargs : ∀ a ∈ args, OneLine a.name.toList) :
    OneLine (call (.text operation) result (args.map .ofParameter)).toList := by
  have hgiven : ∀ part ∈ (result.map fun name => s!"result={name}").toList ++
      (args.map StoredParameter.ofParameter).map argument, OneLine part.toList := by
    refine List.forall_mem_append.2 ⟨fun part hpart => ?_, ?_⟩
    · obtain ⟨name, hname, rfl⟩ := Option.map_eq_some_iff.1 (Option.mem_toList.1 hpart)
      exact oneLine_string_append.2 ⟨by decide, hresult name hname⟩
    · refine List.forall_mem_map.2 (List.forall_mem_map.2 fun a ha => ?_)
      exact oneLine_string_append.2
        ⟨oneLine_string_append.2 ⟨hargs a ha, by decide⟩, oneLine_literal a.literal⟩
  have hjoined : OneLine (String.intercalate ", " _).toList :=
    Json.forall_mem_intercalate (by decide : OneLine ", ".toList) hgiven
  refine oneLine_string_append.2 ⟨oneLine_string_append.2 ⟨oneLine_string_append.2
    ⟨oneLine_string_append.2 ⟨by decide, hoperation⟩, by decide⟩, hjoined⟩, by decide⟩

variable {ν : Type} {t : DraftStep ν}

/-- The number of actions up to a step. -/
def actionsUpTo (steps : List (DraftStep ν)) (i : Nat) : Nat :=
  (steps.take (i + 1)).countP (·.kind = .action)

theorem actionsUpTo_zero (s : DraftStep ν) (steps : List (DraftStep ν)) :
    actionsUpTo (s :: steps) 0 = if s.kind = .action then 1 else 0 := by
  by_cases hk : s.kind = .action <;> simp [actionsUpTo, hk]

theorem actionsUpTo_succ (s : DraftStep ν) (steps : List (DraftStep ν)) (i : Nat) :
    actionsUpTo (s :: steps) (i + 1) = actionsUpTo (s :: steps) 0 + actionsUpTo steps i := by
  rw [actionsUpTo_zero, actionsUpTo, actionsUpTo, List.take_succ_cons, List.countP_cons, Nat.add_comm]
  simp

variable [ToValue ν]

/-- The step as data. -/
abbrev stepData (t : DraftStep ν) : StoredStep := t.map .text .ofPhrase .ofParameter toValue

theorem oneLine_keyword (k : Kind) : OneLine k.keyword.toList := by
  cases k <;> decide

/-- A keyword ends at the first space. -/
theorem keyword_append_inj {k k' : Kind} {cs' : List Char}
    (h : k.keyword.toList ++ ' ' :: cs = k'.keyword.toList ++ ' ' :: cs') : k = k' ∧ cs = cs' := by
  have hspace : ∀ k : Kind, ' ' ∉ k.keyword.toList := by
    intro k
    cases k <;> decide
  have hkeyword : k.keyword = k'.keyword → k = k' := by
    cases k <;> cases k' <;> decide
  obtain ⟨hk, hcs⟩ := append_cons_inj (hspace k) (hspace k') h
  exact ⟨hkeyword (String.toList_inj.1 hk), hcs⟩

theorem oneLine_commentLine (h : OneLine t.statement.toList) :
    OneLine (commentLine (stepData t)).toList := by
  refine oneLine_string_append.2 ⟨by decide, ?_⟩
  exact oneLine_string_append.2 ⟨oneLine_string_append.2
    ⟨oneLine_string_append.2 ⟨oneLine_keyword t.kind, by decide⟩, h⟩, by decide⟩

theorem oneLine_actionVariable (n : Nat) : OneLine (actionVariable n).toList :=
  oneLine_string_append.2 ⟨by decide, Nat.toList_repr ▸ oneLine_toDigits n⟩

theorem oneLine_compared {call expected : String} (hcall : OneLine call.toList)
    (hexpected : OneLine expected.toList) (c : Comparison) :
    OneLine (compared call expected c).toList := by
  have hjoin {a b : String} (ha : OneLine a.toList) (hb : OneLine b.toList) (sign : String)
      (hsign : OneLine sign.toList) : OneLine (a ++ sign ++ b).toList :=
    oneLine_string_append.2 ⟨oneLine_string_append.2 ⟨ha, hsign⟩, hb⟩
  cases c with
  | contains => exact hjoin hexpected hcall " in " (by decide)
  | truthy => exact hcall
  | falsy => exact oneLine_string_append.2 ⟨by decide, hcall⟩
  | eq => exact hjoin hcall hexpected " == " (by decide)
  | ne => exact hjoin hcall hexpected " != " (by decide)
  | gt => exact hjoin hcall hexpected " > " (by decide)
  | ge => exact hjoin hcall hexpected " >= " (by decide)
  | lt => exact hjoin hcall hexpected " < " (by decide)
  | le => exact hjoin hcall hexpected " <= " (by decide)

/-- The call of a binding; `n` is the number of the last action. -/
def bindingCall (n : Nat) (b : Binding String Parameter) : String :=
  call (.text b.operation) (if b.passResult then some (actionVariable n) else none)
    (b.args.map .ofParameter)

/-- The condition that an outcome asserts. -/
def condition (n : Nat) (b : Binding String Parameter) : String :=
  match b.expected with
  | some p => compared (bindingCall n b) (Value.ofLiteral p.literal).literal b.comparison
  | none => checked (bindingCall n b) b.comparison

/-- The code line of a step that is bound. -/
def boundLine (n : Nat) (t : DraftStep ν) (b : Binding String Parameter) : String :=
  match t.kind with
  | .context => s!"    {bindingCall n b}"
  | .action => s!"    {actionVariable n} = {bindingCall n b}"
  | .outcome => "    " ++ s!"assert {condition n b}, {quoted (stepText (stepData t))}"

variable {b : Binding String Parameter} {steps : List (DraftStep ν)}
  {pairs : List (String × String)}

theorem codeLine_eq_boundLine (n : Nat) (hb : b.WellFormed t.kind) :
    codeLine n (b.map .text .ofParameter) (stepData t) = .ok (boundLine n t b) := by
  have hkind : (stepData t).kind = t.kind := rfl
  unfold codeLine boundLine
  rw [hkind]
  cases hk : t.kind with
  | outcome =>
    have hsome := hb.expected hk
    simp only [condition, assertion, Binding.map]
    cases hexpected : b.expected with
    | none =>
      rw [hexpected] at hsome
      simp only [← hsome, Option.isSome_none, Bool.false_eq_true, if_false]
      rfl
    | some p =>
      rw [hexpected] at hsome
      simp only [← hsome, Option.isSome_some, if_true]
      rfl
  | _ =>
    obtain ⟨-, -, hpass⟩ := hb.plain (by rw [hk]; decide)
    simp only [bindingCall, hpass]
    rfl

theorem oneLine_boundLine (n : Nat) (hb : b.WellFormed t.kind) :
    OneLine (boundLine n t b).toList := by
  have hcall : OneLine (bindingCall n b).toList := by
    refine oneLine_call (oneLine_of_isDotted hb.operation) (fun name hname => ?_)
      fun a ha => oneLine_of_isName (hb.names a ha)
    split at hname
    · cases hname
      exact oneLine_actionVariable n
    · cases hname
  have hcondition : OneLine (condition n b).toList := by
    unfold condition
    split
    · exact oneLine_compared hcall (oneLine_literal _) _
    · unfold checked
      split
      · exact oneLine_string_append.2 ⟨by decide, hcall⟩
      · exact hcall
  unfold boundLine
  split
  · exact oneLine_string_append.2 ⟨by decide, hcall⟩
  · exact oneLine_string_append.2 ⟨oneLine_string_append.2 ⟨oneLine_string_append.2
      ⟨by decide, oneLine_actionVariable n⟩, by decide⟩, hcall⟩
  · exact oneLine_string_append.2 ⟨by decide, oneLine_string_append.2 ⟨oneLine_string_append.2
      ⟨oneLine_string_append.2 ⟨by decide, hcondition⟩, by decide⟩, oneLine_quoted _⟩⟩

theorem endsBare_boundLine (n : Nat) (t : DraftStep ν) (b : Binding String Parameter) :
    EndsBare (boundLine n t b) := by
  unfold boundLine
  split
  · exact (endsBare_call ..).append _
  · exact (endsBare_call ..).append _
  · exact ((endsBare_quoted _).append _).append _

/-- The lines of a step come before those of the steps behind it. -/
theorem stepLines_cons {id : Value} {s : DraftStep ν}
    (h : stepLines id n ((s :: steps).map stepData) = .ok pairs)
    (hs : ∀ b, s.resolution = .resolved b → b.WellFormed s.kind) :
    ∃ b later, s.resolution = .resolved b ∧
      stepLines id (n + actionsUpTo (s :: steps) 0) (steps.map stepData) = .ok later ∧
      pairs = (commentLine (stepData s), boundLine (n + actionsUpTo (s :: steps) 0) s b) :: later := by
  have hcount : (if (stepData s).kind = .action then n + 1 else n) =
      n + actionsUpTo (s :: steps) 0 := by
    change (if s.kind = .action then n + 1 else n) = _
    rw [actionsUpTo_zero]
    split <;> rfl
  rw [List.map_cons, stepLines] at h
  cases hresolution : s.resolution with
  | resolved b =>
    have hdata : (stepData s).resolution = .resolved (b.map .text .ofParameter) := by
      simp only [stepData, Step.map, hresolution, Resolution.map]
    rw [hdata] at h
    obtain ⟨code, hcode, h⟩ := bind_eq_ok.1 h
    obtain ⟨later, hlater, h⟩ := bind_eq_ok.1 h
    cases h
    rw [codeLine_eq_boundLine _ (hs b hresolution)] at hcode
    cases hcode
    rw [hcount] at hlater ⊢
    exact ⟨b, later, rfl, hlater, rfl⟩
  | ambiguous candidates patterns =>
    simp only [stepData, Step.map, hresolution, Resolution.map] at h
    cases h
  | unresolved reason detail candidates =>
    simp only [stepData, Step.map, hresolution, Resolution.map] at h
    cases h

/-- Each step has its own two lines. -/
theorem getElem?_stepLines {id : Value} (h : stepLines id n (steps.map stepData) = .ok pairs)
    (hbound : ∀ t ∈ steps, ∀ b, t.resolution = .resolved b → b.WellFormed t.kind) :
    pairs.length = steps.length ∧ ∀ i t, steps[i]? = some t → ∃ b, t.resolution = .resolved b ∧
      pairs[i]? = some (commentLine (stepData t), boundLine (n + actionsUpTo steps i) t b) := by
  -- the number that is carried along counts the actions before
  induction steps generalizing n pairs with
  | nil =>
    cases h
    exact ⟨rfl, by simp⟩
  | cons s steps ih =>
    obtain ⟨hs, hsteps⟩ := List.forall_mem_cons.1 hbound
    obtain ⟨b, later, hresolution, hlater, rfl⟩ := stepLines_cons h hs
    obtain ⟨hlength, hget⟩ := ih hlater hsteps
    refine ⟨congrArg Nat.succ hlength, fun i t hi => ?_⟩
    cases i with
    | zero =>
      cases hi
      exact ⟨b, hresolution, rfl⟩
    | succ i =>
      obtain ⟨b', hb', hpair⟩ := hget i t hi
      refine ⟨b', hb', hpair.trans ?_⟩
      rw [actionsUpTo_succ, Nat.add_assoc]

end Emission
end Acceptance

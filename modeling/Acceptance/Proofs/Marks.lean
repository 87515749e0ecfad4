import Acceptance.Project.Outputs
import Acceptance.Proofs.EmittedLines
/-!
The marks of the files that a compiled spec leaves. They are found again when the files are read, so
each file that was written is known as one that may be removed.
-/
namespace Acceptance

variable {cs p : List Char}

namespace Json

open Text (forall_mem_of_all)

/-- A character of the texts that are written: a line feed or a printing character of ASCII. -/
def IsAscii (c : Char) : Prop := c = '\n' ∨ 0x20 ≤ c.toNat ∧ c.toNat < 0x7f

instance (c : Char) : Decidable (IsAscii c) := inferInstanceAs (Decidable (_ ∨ _))

theorem isAscii_hexDigit (n : Nat) : IsAscii (Text.hexDigit n) := by
  have hall : ∀ k < 16, IsAscii (Nat.digitChar k) := by decide
  exact hall _ (Nat.mod_lt _ (by decide))

theorem isAscii_unitEscape (n : Nat) : ∀ c ∈ unitEscape n, IsAscii c := by
  intro c hc
  simp only [unitEscape, Text.hex, List.mem_cons, List.mem_append, List.not_mem_nil, false_or,
    or_false] at hc
  rcases hc with rfl | rfl | ((rfl | rfl) | rfl) | rfl
  · decide
  · decide
  all_goals exact isAscii_hexDigit _

theorem isAscii_escapeChar (c : Char) : ∀ d ∈ escapeChar c, IsAscii d := by
  unfold escapeChar
  dsimp only
  split_ifs with hquote hn hr ht hb hf hplain hunit
  · rw [Bool.or_eq_true, decide_eq_true_eq, decide_eq_true_eq] at hquote
    rcases hquote with rfl | rfl <;> exact forall_mem_of_all (by decide)
  · exact forall_mem_of_all (by decide)
  · exact forall_mem_of_all (by decide)
  · exact forall_mem_of_all (by decide)
  · exact forall_mem_of_all (by decide)
  · exact forall_mem_of_all (by decide)
  · rw [Bool.and_eq_true, decide_eq_true_eq, decide_eq_true_eq] at hplain
    exact List.forall_mem_singleton.2 (.inr hplain)
  · exact isAscii_unitEscape _
  · exact List.forall_mem_append.2 ⟨isAscii_unitEscape _, isAscii_unitEscape _⟩

theorem isAscii_quotedPoints (ps : List Nat) : ∀ c ∈ (quotedPoints ps).toList, IsAscii c := by
  rw [quotedPoints, String.toList_ofList, List.cons_append, List.forall_mem_cons]
  refine ⟨by decide, List.forall_mem_append.2 ⟨List.forall_mem_flatMap.2 fun n _ => ?_,
    forall_mem_of_all (by decide)⟩⟩
  rw [escapePoint]
  split
  · exact isAscii_unitEscape n
  · exact isAscii_escapeChar _

theorem isAscii_quoted (s : String) : ∀ c ∈ (quoted s).toList, IsAscii c := by
  rw [← quotedPoints_points]
  exact isAscii_quotedPoints _

theorem isAscii_of_isBare {c : Char} (h : Text.IsBare c) : IsAscii c := by
  rcases h with h | rfl | rfl | rfl
  · have hrange := Text.toNat_of_isNameChar h
    exact .inr ⟨by omega, by omega⟩
  all_goals decide

theorem isAscii_number (x : Binary64) : ∀ c ∈ (number x).toList, IsAscii c := by
  cases x with
  | nan => exact forall_mem_of_all (by decide)
  | infinite negative => cases negative <;> exact forall_mem_of_all (by decide)
  | finite negative m e =>
    exact fun c hc => isAscii_of_isBare (isBare_float (.finite negative m e) c hc)

theorem isAscii_lead (l : Layout) (level : Nat) : ∀ c ∈ (l.lead level).toList, IsAscii c := by
  unfold Layout.lead
  split
  · simp
  · rw [String.toList_append]
    refine List.forall_mem_append.2 ⟨forall_mem_of_all (by decide), fun c hc => ?_⟩
    rw [String.toList_ofList] at hc
    rw [List.eq_of_mem_replicate hc]
    decide

theorem isAscii_enclose (l : Layout) (level : Nat) {opening closing : String} {parts : List String}
    (hopening : ∀ c ∈ opening.toList, IsAscii c) (hclosing : ∀ c ∈ closing.toList, IsAscii c)
    (hparts : ∀ p ∈ parts, ∀ c ∈ p.toList, IsAscii c) :
    ∀ c ∈ (l.enclose level opening closing parts).toList, IsAscii c := by
  have hcomma : ∀ c ∈ l.comma.toList, IsAscii c := by
    rw [Layout.comma]
    split <;> exact forall_mem_of_all (by decide)
  unfold Layout.enclose
  split
  · rw [String.toList_append]
    exact List.forall_mem_append.2 ⟨hopening, hclosing⟩
  · simp only [String.toList_append, List.forall_mem_append]
    refine ⟨⟨⟨⟨hopening, isAscii_lead _ _⟩, forall_mem_intercalate ?_ hparts⟩, isAscii_lead _ _⟩, hclosing⟩
    rw [String.toList_append]
    exact List.forall_mem_append.2 ⟨hcomma, isAscii_lead _ _⟩

theorem isAscii_brackets (l : Layout) (level : Nat) {parts : List String}
    (hparts : ∀ p ∈ parts, ∀ c ∈ p.toList, IsAscii c) :
    ∀ c ∈ (l.enclose level "[" "]" parts).toList, IsAscii c :=
  isAscii_enclose l level (forall_mem_of_all (by decide)) (forall_mem_of_all (by decide)) hparts

theorem isAscii_entries (l : Layout) {es : List (List Nat × String)}
    (h : ∀ e ∈ es, ∀ c ∈ e.2.toList, IsAscii c) : ∀ p ∈ l.entries es, ∀ c ∈ p.toList, IsAscii c := by
  have hsorted : ∀ e ∈ if l.sorted then sortByKey es else es, e ∈ es := by
    split
    · exact fun e he => (List.mergeSort_perm _ _).mem_iff.1 he
    · exact fun e he => he
  refine List.forall_mem_map.2 fun e he => ?_
  simp only [String.toList_append, List.forall_mem_append]
  exact ⟨⟨isAscii_quotedPoints _, forall_mem_of_all (by decide)⟩, h e (hsorted e he)⟩

mutual

/-- All that is written is ASCII, whatever the data. -/
theorem isAscii_render (l : Layout) (level : Nat) :
    (v : Value) → ∀ c ∈ (l.render level v).toList, IsAscii c
  | .null => by
    rw [Layout.render]
    exact forall_mem_of_all (by decide)
  | .boolean b => by
    rw [Layout.render]
    cases b <;> exact forall_mem_of_all (by decide)
  | .int n => fun c hc => isAscii_of_isBare (isBare_int n c hc)
  | .float x => isAscii_number x
  | .text s => isAscii_quoted s
  | .torn ps => isAscii_quotedPoints ps
  | .list vs => isAscii_brackets l level (isAscii_renderItems l (level + 1) vs)
  | .tuple vs => isAscii_brackets l level (isAscii_renderItems l (level + 1) vs)
  | .set vs => isAscii_brackets l level (isAscii_renderItems l (level + 1) vs)
  | .map es => by
    rw [Layout.render]
    exact isAscii_enclose l level (forall_mem_of_all (by decide)) (forall_mem_of_all (by decide))
      (isAscii_entries l (isAscii_renderEntries l (level + 1) es))
  | .bytes _ => isAscii_quoted _
  | .date _ => isAscii_quoted _
  | .moment _ => isAscii_quoted _
  | .knot _ _ => isAscii_quoted _
  | .loop _ _ => isAscii_quoted _

theorem isAscii_renderItems (l : Layout) (level : Nat) :
    (vs : List Value) → ∀ p ∈ l.renderItems level vs, ∀ c ∈ p.toList, IsAscii c
  | [] => by simp [Layout.renderItems]
  | v :: vs => List.forall_mem_cons.2 ⟨isAscii_render l level v, isAscii_renderItems l level vs⟩

theorem isAscii_renderEntries (l : Layout) (level : Nat) :
    (es : List (Value × Value)) → ∀ e ∈ l.renderEntries level es, ∀ c ∈ e.2.toList, IsAscii c
  | [] => by simp [Layout.renderEntries]
  | (_, v) :: es =>
    List.forall_mem_cons.2 ⟨isAscii_render l level v, isAscii_renderEntries l level es⟩

end

end Json

/-! Texts in files. -/

namespace Text

theorem decode_encode (s : String) : decode (encode s) = .ok s := by
  have hback : String.fromUTF8? (encode s) = some s := by
    rw [String.fromUTF8?, encode, String.toUTF8_eq_toByteArray, dif_pos s.isValidUTF8]
    rfl
  rw [decode, hback]

theorem unifyBreaks_cons {c : Char} (h : c = '\r' → cs.head? ≠ some '\n') :
    unifyBreaks (c :: cs) = (if c = '\r' then '\n' else c) :: unifyBreaks cs := by
  rw [unifyBreaks.eq_def]
  split
  · next heq => cases heq
  · next heq =>
    obtain ⟨rfl, rfl⟩ := List.cons.inj heq
    exact absurd rfl (h rfl)
  · next heq =>
    obtain ⟨rfl, rfl⟩ := List.cons.inj heq
    rfl

/-- Breaks are unified part by part, where no part starts in the middle of a break. -/
theorem unifyBreaks_append {ds : List Char} (h : ds.head? ≠ some '\n') :
    unifyBreaks (cs ++ ds) = unifyBreaks cs ++ unifyBreaks ds := by
  fun_induction unifyBreaks cs with
  | case1 => rfl
  | case2 cs ih => rw [List.cons_append, List.cons_append, unifyBreaks, ih, List.cons_append]
  | case3 c cs hpair ih =>
    rw [List.cons_append, unifyBreaks_cons, ih, List.cons_append]
    intro hc
    cases cs with
    | nil => exact h
    | cons d cs =>
      rw [List.cons_append, List.head?_cons, Ne, Option.some.injEq]
      rintro rfl
      exact hpair cs hc rfl

theorem unifyBreaks_append_of_not_mem (h : '\r' ∉ cs) (ds : List Char) :
    unifyBreaks (cs ++ ds) = cs ++ unifyBreaks ds := by
  induction cs with
  | nil => rfl
  | cons c cs ih =>
    obtain ⟨hc, hcs⟩ := not_or.1 (mt List.mem_cons.2 h)
    rw [List.cons_append, unifyBreaks_cons fun he => absurd he.symm hc, if_neg (Ne.symm hc), ih hcs,
      List.cons_append]

/-- Words on one line are found after breaks have been unified. -/
theorem infix_unifyBreaks (hp : '\r' ∉ p) (hstart : p.head? ≠ some '\n') (h : p <:+: cs) :
    p <:+: unifyBreaks cs := by
  obtain ⟨as, bs, rfl⟩ := h
  cases p with
  | nil => exact List.nil_infix
  | cons c p =>
    rw [List.append_assoc, unifyBreaks_append (by simpa using hstart),
      unifyBreaks_append_of_not_mem hp]
    exact List.infix_append' ..

/-- Trimming keeps a word that does not end in a blank. -/
theorem infix_trimEnd (hp : trimEnd p = p) (h : p <:+: cs) : p <:+: trimEnd cs := by
  by_cases hnil : p = []
  · rw [hnil]
    exact List.nil_infix
  · obtain ⟨as, bs, rfl⟩ := h
    induction bs using List.reverseRecOn with
    | nil =>
      rw [List.append_nil, trimEnd_append hp hnil]
      exact (List.suffix_append as p).isInfix
    | append_singleton bs b ih =>
      rw [← List.append_assoc]
      cases hb : isBlank b with
      | true => rwa [trimEnd_append_blank hb]
      | false =>
        rw [trimEnd_append_singleton hb, List.append_assoc, List.append_assoc, ← List.append_assoc]
        exact List.infix_append ..

end Text

namespace Script

theorem textOf_encode (s : String) :
    textOf (Text.encode s) = .ok (String.ofList (Text.unifyBreaks s.toList)) := by
  rw [textOf, Text.decode_encode]
  rfl

end Script

/-! The marks. -/

namespace Project

open Script

/-- The bytes are those of a plan. -/
def IsPlanBytes (bytes : ByteArray) : Prop :=
  ∃ text v, textOf bytes = .ok text ∧ Json.read text = .ok v ∧ isPlanValue v = true

/-- The bytes are those of a generated test module. -/
def IsTestBytes (bytes : ByteArray) : Prop :=
  ∃ text, textOf bytes = .ok text ∧ Text.occursIn Emission.generatedMarker text = true

theorem isPlanValue_of_shows {v : Value} {fields : List (String × Value)} {mark : String}
    (h : v.Shows fields) (hmark : fields.lookup "generated" = some (.text mark)) :
    isPlanValue v = (mark == Plan.marker) := by
  obtain ⟨es, rfl, hlookup⟩ := h
  rw [← hlookup] at hmark
  simp only [isPlanValue, hmark]

/-- JSON text survives being stored. -/
theorem textOf_encode_write (v : Value) : textOf (Text.encode (Json.sortedLayout.write v ++ "\n")) =
    .ok (Json.sortedLayout.write v ++ "\n") := by
  have hreturn : '\r' ∉ (Json.sortedLayout.write v ++ "\n").toList := by
    rw [String.toList_append, List.mem_append]
    rintro (hmem | hmem)
    · exact absurd (Json.isAscii_render _ _ _ _ hmem) (by decide)
    · exact absurd hmem (by decide)
  have hsame := Text.unifyBreaks_append_of_not_mem hreturn []
  rw [List.append_nil, Text.unifyBreaks, List.append_nil] at hsame
  rw [textOf_encode, hsame, String.ofList_toList]

theorem isPlanBytes_write {p : Plan} {text : String} (h : Plan.write p.stored = .ok text) :
    IsPlanBytes (Text.encode text) := by
  rw [Plan.write] at h
  split at h
  · next hshow =>
    obtain ⟨back, hread⟩ := Json.exists_read_write
    obtain rfl := Except.ok.inj h
    have harranged : Value.Rearranges (Value.arranged (Json.leafBack back)) :=
      Value.rearranges_arranged rfl (fun _ => rfl) fun _ => rfl
    refine ⟨_, _, textOf_encode_write _, hread _ (Plan.plain_stored p) hshow, ?_⟩
    have hmark : isPlanValue ((Plan.record p.stored).arranged (Json.leafBack back)) =
        (Plan.marker == Plan.marker) := isPlanValue_of_shows (harranged.record _ (by simp)) rfl
    rw [hmark, beq_self_eq_true]
  · cases h

theorem infix_intercalate {parts : List (List Char)} (h : p ∈ parts) (sep : List Char) :
    p <:+: sep.intercalate parts := by
  cases parts with
  | nil => cases h
  | cons q ps =>
    rw [Json.intercalate_cons]
    rcases List.mem_cons.1 h with rfl | h
    · exact (List.prefix_append p _).isInfix
    · have hpart : sep ++ p <:+: ps.flatMap (sep ++ ·) :=
        List.infix_of_mem_flatten (List.mem_map_of_mem h)
      exact ((List.suffix_append sep p).isInfix.trans hpart).trans (List.suffix_append q _).isInfix

theorem occursIn_code (lines : List String) (h : Emission.generatedMarker ∈ lines) :
    IsTestBytes (Text.encode
      (String.ofList (Text.trimEnd (String.intercalate "\n" lines).toList) ++ "\n")) := by
  refine ⟨_, textOf_encode _, ?_⟩
  rw [Text.occursIn, Text.occurs_iff, String.toList_ofList]
  refine Text.infix_unifyBreaks (by decide) (by decide) ?_
  rw [String.toList_append, String.toList_ofList, String.toList_intercalate]
  have hline : Emission.generatedMarker.toList <:+: "\n".toList.intercalate (lines.map String.toList) :=
    infix_intercalate (List.mem_map_of_mem h) _
  exact (Text.infix_trimEnd (by decide) hline).trans (List.prefix_append _ _).isInfix

/-- The mark is a line of every test module. -/
theorem isTestBytes_code {r : Registry} {plan : Plan.Stored} {slug : String}
    {scenarios : List Plan.StoredScenario} {m : Emission.TestModule}
    (h : Emission.testModule r plan slug scenarios = .ok m) : IsTestBytes (Text.encode m.code) := by
  obtain ⟨source, -, h⟩ := bind_eq_ok.1 h
  dsimp only at h
  split at h
  all_goals
    obtain ⟨description, -, h⟩ := bind_eq_ok.1 h
    obtain ⟨tests, -, h⟩ := bind_eq_ok.1 h
    rw [← Except.ok.inj h]
    refine occursIn_code _ (List.mem_append_left _ ?_)
    simp [Emission.moduleHead]

end Project
end Acceptance

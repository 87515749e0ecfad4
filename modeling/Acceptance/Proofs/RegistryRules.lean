import Acceptance.Proofs.Expectations
import Acceptance.Proofs.Spacing
/-!
The rules of a registry. Whatever data it was read from, a registry has no pattern twice, its patterns
are spaced and not empty, its holes have usable names, and each template expects what its comparison
asks for and nothing else.
-/
namespace Acceptance

namespace Phrase

theorem refill_cons_of_ne {c : Char} (h : c ≠ '\ufffd') (ns : List Nat) (cs : List Char) :
    refill ns (c :: cs) = c.toNat :: refill ns cs := by
  cases ns with
  | nil => rfl
  | cons n ns => rw [refill, if_neg h]

theorem refill_cons_self (ns : List Nat) (cs : List Char) :
    refill ns ('\ufffd' :: cs) = ns.headD 0xfffd :: refill ns.tail cs := by
  cases ns with
  | nil => rfl
  | cons n ns => rw [refill, if_pos rfl]; rfl

/-- A point that refilling keeps: half of a pair, or a replacement character. -/
def isKept (n : Nat) : Bool := Text.isHalf n || n == 0xfffd

theorem isKept_toNat {c : Char} : isKept c.toNat = true ↔ c = '\ufffd' := by
  simp only [isKept, Text.isHalf_toNat, Bool.false_or, beq_iff_eq]
  exact ⟨fun h => Char.toNat_inj.1 h, fun h => congrArg Char.toNat h⟩

theorem isKept_headD {ns : List Nat} (h : ∀ n ∈ ns, isKept n = true) :
    isKept (ns.headD 0xfffd) = true := by
  cases ns with
  | nil => rfl
  | cons n ns => exact h n List.mem_cons_self

variable {ns : List Nat} {p : Phrase} {f g : List Char → List Char}

theorem visible_refill (h : ∀ n ∈ ns, isKept n = true) (cs : List Char) :
    Text.visible (refill ns cs) = cs := by
  induction cs generalizing ns with
  | nil => cases ns <;> rfl
  | cons c cs ih =>
    by_cases hc : c = '\ufffd'
    · subst hc
      have hrest := ih fun n hn => h n (List.mem_of_mem_tail hn)
      have hkept := isKept_headD h
      rw [refill_cons_self]
      simp only [Text.visible, List.map_cons] at hrest ⊢
      rw [hrest]
      congr 1
      simp only [isKept, Bool.or_eq_true, beq_iff_eq] at hkept
      rcases hkept with hhalf | hsame
      · rw [if_pos hhalf]
      · rw [hsame]
        decide
    · rw [refill_cons_of_ne hc]
      simp only [Text.visible, List.map_cons, Text.isHalf_toNat] at ih ⊢
      rw [ih h]
      simp

/-- Refilling with what a text has been filled with fills it in the same way. -/
theorem refill_filter (h : ∀ n ∈ ns, isKept n = true) (cs : List Char) :
    refill ((refill ns cs).filter isKept) cs = refill ns cs := by
  induction cs generalizing ns with
  | nil => cases ns <;> rfl
  | cons c cs ih =>
    by_cases hc : c = '\ufffd'
    · subst hc
      rw [refill_cons_self ns, List.filter_cons_of_pos (isKept_headD h), refill_cons_self]
      exact congrArg _ (ih fun n hn => h n (List.mem_of_mem_tail hn))
    · rw [refill_cons_of_ne hc ns, List.filter_cons_of_neg (mt isKept_toNat.1 hc),
        refill_cons_of_ne hc, ih h]

/-- A change that has nothing left to do leaves a changed phrase as it is. -/
theorem change_change (h : g (f (Text.visible p.points)) = f (Text.visible p.points)) :
    (p.change f).change g = p.change f := by
  have hkept : ∀ n ∈ p.points.filter isKept, isKept n = true :=
    fun _ hn => (List.mem_filter.1 hn).2
  show Phrase.mk (refill ((refill (p.points.filter isKept) (f (Text.visible p.points))).filter isKept)
    (g (Text.visible (refill (p.points.filter isKept) (f (Text.visible p.points)))))) = _
  rw [visible_refill hkept, h, refill_filter hkept]
  rfl

end Phrase

namespace Registry

open Text

theorem respace_cleanPattern (cs : List Char) : respace (cleanPattern cs) = cleanPattern cs := by
  simp only [cleanPattern]
  split
  · next hdot =>
    obtain ⟨b, hb⟩ : ∃ b, respace cs = b ++ ['.'] :=
      ⟨_, (List.dropLast_append_getLast? '.' (by simpa using hdot)).symm⟩
    obtain ⟨bs, hsplit, hbs⟩ := exists_append_of_trimEnd b
    have hwhole := respace_respace cs
    rw [hb, hsplit, List.append_assoc] at hwhole
    rw [hb, List.dropLast_concat]
    refine respace_of_append ?_ hwhole (List.rdropWhile_idempotent isBlank b)
    simpa using quote_not_mem_of_blank hbs
  · exact respace_respace cs

theorem respaced_of_patternOf {v : Value} {p : Phrase} (h : patternOf v = .ok p) :
    p.change respace = p := by
  obtain ⟨told, -, h⟩ := bind_eq_ok.1 h
  dsimp only at h
  split at h
  · cases h
  · cases h
    exact Phrase.change_change (respace_cleanPattern _)

theorem nodup_of_repeated {names : List String} (h : (repeated names).isEmpty = true) :
    names.Nodup := by
  rw [List.nodup_iff_count_le_one]
  intro name
  by_contra hmore
  have hcount : 1 < names.count name := Nat.lt_of_not_le hmore
  have hmem : name ∈ repeated names := by
    refine List.mem_mergeSort.2 (List.mem_eraseDups.2 (List.mem_filter.2 ⟨?_, by simpa using hcount⟩))
    exact List.count_pos_iff.1 (Nat.zero_lt_of_lt hcount)
  rw [List.isEmpty_iff.1 h] at hmem
  cases hmem

/-- No kind has a pattern twice, in what is read or in what was read before. -/
theorem distinct_of_templatesFrom {source : String} {vs : List Value} {i : Nat}
    {seen ts : List Template} (h : templatesFrom source i seen vs = .ok ts) :
    (ts.map fun t => (t.kind, t.pattern)).Nodup ∧
      ∀ t ∈ ts, ∀ s ∈ seen, (s.kind, s.pattern) ≠ (t.kind, t.pattern) := by
  induction vs generalizing i seen ts with
  | nil =>
    cases h
    simp
  | cons v vs ih =>
    obtain ⟨t, -, h⟩ := bind_eq_ok.1 h
    split at h
    · cases h
    · next hnew =>
      obtain ⟨rest, hrest, h⟩ := bind_eq_ok.1 h
      cases h
      obtain ⟨hnodup, hseen⟩ := ih hrest
      have ht : ∀ s ∈ seen, (s.kind, s.pattern) ≠ (t.kind, t.pattern) := by
        simpa using hnew
      refine ⟨List.nodup_cons.2 ⟨fun hmem => ?_, hnodup⟩, List.forall_mem_cons.2 ⟨ht, ?_⟩⟩
      · obtain ⟨u, hu, heq⟩ := List.mem_map.1 hmem
        exact hseen u hu t List.mem_cons_self heq.symm
      · exact fun u hu s hs => hseen u hu s (List.mem_cons_of_mem t hs)

end Registry

/-- What is true of every template that was read. -/
structure Template.WellFormed (t : Template) : Prop where
  pattern : t.pattern ≠ ""
  spaced : t.pattern.change Text.respace = t.pattern
  holes : t.holes.map (·.1) = Registry.holeNames (Registry.pieces t.pattern.visible)
  distinct : (t.holes.map (·.1)).Nodup
  unreserved : ∀ name ∈ t.holes.map (·.1), name ∉ Registry.reservedWords
  types : ∀ hole ∈ t.holes, hole.2.name ∈ ["string", "number", "boolean", "any"]
  plain : t.kind ≠ .outcome → t.expected = none ∧ t.constant = none ∧ t.passResult = false
  expects : t.kind = .outcome → t.comparison.takesExpected = true →
    t.expected.isSome = !t.constant.isSome
  expectsNone : t.kind = .outcome → t.comparison.takesExpected = false →
    t.expected = none ∧ t.constant = none
  expected : ∀ name ∈ t.expected, name ∈ t.holes.map (·.1)
  result : t.passResult = true → "result" ∉ t.holes.map (·.1)

theorem Template.wellFormed_of_templateOf {v : Value} {t : Template}
    (h : Registry.templateOf v = .ok t) : t.WellFormed := by
  obtain ⟨es, -, hpattern, hholes, -, -, hcases⟩ := Registry.templateOf_cases h
  obtain ⟨hnames, hrepeated, hunreserved⟩ := Registry.holesOf_cases hholes
  -- `hcases` separates an outcome, which has an expectation of its own, from the other kinds,
  -- which have none and no result to pass on.
  refine ⟨Registry.patternOf_ne_empty hpattern, Registry.respaced_of_patternOf hpattern, hnames,
    Registry.nodup_of_repeated hrepeated, hunreserved, fun hole _ => ?_, fun hkind => ?_,
    fun hkind htakes => ?_, fun hkind hno => ?_, ?_, ?_⟩
  · rcases hole.2 with _ | _ | _ | _ <;> decide
  · rcases hcases with ⟨houtcome, -⟩ | ⟨-, hexpected, hconstant, -, hpass⟩
    · exact absurd houtcome hkind
    · exact ⟨hexpected, hconstant, hpass⟩
  · rcases hcases with ⟨-, hexpectation, -⟩ | ⟨hne, -⟩
    · rcases Registry.expectationOf_cases hexpectation with
        ⟨-, ⟨name, -, hexpected, hconstant⟩ | ⟨hexpected, hconstant⟩⟩ | ⟨hno, -⟩
      · simp [hexpected, hconstant]
      · simp [hexpected, hconstant]
      · exact absurd (htakes.symm.trans hno) (by decide)
    · exact absurd hkind hne
  · rcases hcases with ⟨-, hexpectation, -⟩ | ⟨hne, -⟩
    · rcases Registry.expectationOf_cases hexpectation with ⟨htakes, -⟩ | ⟨-, hnone⟩
      · exact absurd (htakes.symm.trans hno) (by decide)
      · exact hnone
    · exact absurd hkind hne
  · rcases hcases with ⟨-, hexpectation, -⟩ | ⟨-, hexpected, -⟩
    · rcases Registry.expectationOf_cases hexpectation with
        ⟨-, ⟨name, hname, hexpected, -⟩ | ⟨hexpected, -⟩⟩ | ⟨-, hexpected, -⟩ <;>
      simp_all
    · simp [hexpected]
  · rcases hcases with ⟨-, -, hresult⟩ | ⟨-, -, -, -, hpass⟩
    · exact hresult
    · simp [hpass]

/-- No kind has a pattern twice, and each template keeps the rules. -/
structure Registry.WellFormed (r : Registry) : Prop where
  distinct : (r.templates.map fun t => (t.kind, t.pattern)).Nodup
  templates : ∀ t ∈ r.templates, t.WellFormed

/-- Every registry that is read from data keeps the rules, whatever the data. -/
theorem Registry.wellFormed_of_ofValue {v : Value} {source : String} {r : Registry}
    (h : ofValue v source = .ok r) : r.WellFormed := by
  obtain ⟨entries, hentries⟩ := exists_templatesFrom h
  refine ⟨(distinct_of_templatesFrom hentries).1, fun t ht => ?_⟩
  obtain ⟨w, hw⟩ := exists_templateOf h t ht
  exact Template.wellFormed_of_templateOf hw

/-- Templates with all that can be left out or is falsy, a constant that is false, and one hole
between quotes that is expected because it is the only one. -/
def tallies : Value :=
  .record [("module", .text "shop.tally"), ("setup", .text ""), ("templates", .list [
    .record [("kind", .text "WHEN"), ("pattern", .text " \"\x7bitem\x7d\"  is \t added . "),
      ("operation", .text "add"), ("params", .null)],
    .record [("kind", .text "THEN"), ("pattern", .text "the \"\x7bitem\x7d\"  is listed."),
      ("operation", .text "listed"), ("compare", .text ""), ("pass_result", .int 1)],
    .record [("kind", .text "THEN"), ("pattern", .text "\x7ba\x7d and \x7bb\x7d differ"),
      ("operation", .text "same"), ("expected_value", .boolean false),
      ("params", .record [("b", .text "number")])]])]

def talliesRegistry : Registry :=
  ⟨"shop.tally", [
    ⟨.action, "\"\x7bitem\x7d\" is added", "add", [("item", .any)], none, none, .eq, false⟩,
    ⟨.outcome, "the \"\x7bitem\x7d\" is listed", "listed", [("item", .any)], some "item", none, .eq,
      true⟩,
    ⟨.outcome, "\x7ba\x7d and \x7bb\x7d differ", "same", [("a", .any), ("b", .only .number)], none,
      some (.boolean false), .eq, false⟩],
    none, none, "shop.yaml"⟩

theorem Registry.wellFormed_of_ofValue_tallies :
    ofValue tallies "shop.yaml" = .ok talliesRegistry ∧ talliesRegistry.WellFormed := by
  have hread : ofValue tallies "shop.yaml" = .ok talliesRegistry :=
    eq_ok_of_toOption (by decide +kernel)
  exact ⟨hread, wellFormed_of_ofValue hread⟩

end Acceptance

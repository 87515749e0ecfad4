import Acceptance.Proofs.Expectations
import Acceptance.Proofs.Grammar
import Acceptance.Proofs.PlanText
import Acceptance.Proofs.Spacing
/-!
Texts with short numbers: no run of digits in them is longer than an integer may be. Whatever is
taken from such a text, by reading it or by holding it against a registry, is an integer that can be
read and written again.
-/
namespace Acceptance

open Text

variable {cs ds rest : List Char} {n : Numeral} {statement text : String} {m : Misfit}
  {ts : List Spec.Token}

namespace Text

/-- No run of digits is too long for an integer. -/
def ShortRuns (cs : List Char) : Prop :=
  ∀ ds, ds <:+: cs → (∀ d ∈ ds, isDigit d = true) → ds.length ≤ Numeral.maxDigits

theorem ShortRuns.mono (h : ShortRuns cs) (hds : ds <:+: cs) :
    ShortRuns ds := fun run hrun => h run (hrun.trans hds)

theorem prefix_of_head?_lines : ∀ l ∈ (lines cs).head?, l <+: cs := by
  fun_induction lines cs with
  | case1 => simp
  | case2 => simp
  | case3 => simp
  | case4 c cs _ _ ih =>
    cases hls : lines cs with
    | nil => simp [consLine]
    | cons l ls =>
      rw [hls] at ih
      simpa [consLine] using ih

theorem infix_of_mem_lines : ∀ l ∈ lines cs, l <:+: cs := by
  fun_induction lines cs with
  | case1 => simp
  | case2 cs ih =>
    refine List.forall_mem_cons.2 ⟨List.nil_infix, fun l hl => ?_⟩
    exact (ih l hl).trans (List.suffix_append ['\r', '\n'] cs).isInfix
  | case3 c cs _ _ ih =>
    refine List.forall_mem_cons.2 ⟨List.nil_infix, fun l hl => ?_⟩
    exact (ih l hl).trans (List.suffix_cons c cs).isInfix
  | case4 c cs _ _ ih =>
    have hhead : ∀ l ∈ (lines cs).head?, l <+: cs := prefix_of_head?_lines
    cases hls : lines cs with
    | nil => exact List.forall_mem_singleton.2 (List.prefix_append [c] cs).isInfix
    | cons l ls =>
      rw [hls] at ih hhead
      obtain ⟨-, ih⟩ := List.forall_mem_cons.1 ih
      refine List.forall_mem_cons.2 ⟨?_, fun m hm => (ih m hm).trans (List.suffix_cons c cs).isInfix⟩
      exact ((List.prefix_cons_inj c).2 (hhead l rfl)).isInfix

/-- A run of digits that a text starts with, outside a gap, was there before blanks were collapsed. -/
theorem prefix_of_collapse {r : Region} (hr : r ≠ .gap) (hds : ∀ d ∈ ds, isDigit d = true)
    (h : ds <+: collapse r cs) : ds <+: cs := by
  induction cs generalizing r ds with
  | nil => simpa [collapse] using h
  | cons c cs ih =>
    cases ds with
    | nil => exact List.nil_prefix
    | cons d ds =>
      obtain ⟨hd, hds⟩ := List.forall_mem_cons.1 hds
      rcases collapse_cons r c cs with ⟨r', hr', heq⟩ | ⟨-, heq | ⟨hgap, heq⟩⟩ <;> rw [heq] at h
      · obtain ⟨rfl, hlater⟩ := List.cons_prefix_cons.1 h
        exact (List.prefix_cons_inj _).2 (ih hr' hds hlater)
      · obtain ⟨rfl, -⟩ := List.cons_prefix_cons.1 h
        exact absurd hd (by decide)
      · exact absurd hgap hr

theorem infix_of_collapse {r : Region} (hds : ∀ d ∈ ds, isDigit d = true)
    (h : ds <:+: collapse r cs) : ds <:+: cs := by
  induction cs generalizing r with
  | nil => simpa [collapse] using h
  | cons c cs ih =>
    have hlater {r' : Region} (h : ds <:+: collapse r' cs) : ds <:+: c :: cs :=
      (ih h).trans (List.suffix_cons c cs).isInfix
    -- Digits that start with the character of the step are a prefix of what was there.
    cases ds with
    | nil => exact List.nil_infix
    | cons d ds =>
      obtain ⟨hd, hlast⟩ := List.forall_mem_cons.1 hds
      rcases collapse_cons r c cs with ⟨r', hr', heq⟩ | ⟨-, heq | ⟨-, heq⟩⟩ <;> rw [heq] at h
      · rcases List.infix_cons_iff.1 h with h | h
        · obtain ⟨rfl, hstart⟩ := List.cons_prefix_cons.1 h
          exact ((List.prefix_cons_inj _).2 (prefix_of_collapse hr' hlast hstart)).isInfix
        · exact hlater h
      · rcases List.infix_cons_iff.1 h with h | h
        · obtain ⟨rfl, -⟩ := List.cons_prefix_cons.1 h
          exact absurd hd (by decide)
        · exact hlater h
      · exact hlater h

theorem ShortRuns.normalize {s : String} (h : ShortRuns s.toList) :
    ShortRuns (normalize s).toList := by
  rw [Text.normalize, String.toList_ofList]
  exact fun ds hwithin hds => h ds (infix_of_collapse hds (hwithin.trans (trim_isInfix _))) hds

end Text

/-! Numerals and the literals that they are. -/

variable {k : Nat} {ps : List Parameter}

namespace Numeral

theorem digitsValue_lt (ds : List Char) : digitsValue ds < 10 ^ ds.length := by
  induction ds using List.reverseRecOn with
  | nil => decide
  | append_singleton ds d ih =>
    have hvalue : digitsValue (ds ++ [d]) = 10 * digitsValue ds + (digitValue? d).getD 0 := by
      simp [digitsValue]
    have hdigit : (digitValue? d).getD 0 < 10 := by
      cases hd : digitValue? d with
      | none => decide
      | some v => exact digitValue?_lt hd
    rw [hvalue, List.length_append, List.length_singleton, Nat.pow_succ]
    omega

theorem digitsValue_lt_pow (h : ds.length ≤ k) : digitsValue ds < Nat.pow 10 k :=
  (digitsValue_lt ds).trans_le (Nat.pow_le_pow_right (by decide) h)

/-- The whole part of a numeral is a run of digits of the text. -/
def Within (n : Numeral) (cs : List Char) : Prop :=
  n.whole <:+: cs ∧ ∀ d ∈ n.whole, isDigit d = true

theorem takeFraction_suffix (cs : List Char) : (takeFraction cs).2 <:+ cs := by
  unfold takeFraction
  split
  · split
    · exact List.suffix_rfl
    · exact (List.dropWhile_suffix isDigit).trans (List.suffix_cons _ _)
  · exact List.suffix_rfl

theorem of_take? (h : take? cs = some (n, rest)) : n.Within cs ∧ rest <:+ cs := by
  have hunsigned {negative : Bool} {ds : List Char}
      (h : takeUnsigned? negative ds = some (n, rest)) : n.Within ds ∧ rest <:+ ds := by
    unfold takeUnsigned? at h
    split at h
    · cases h
    · cases h
      exact ⟨⟨(List.takeWhile_prefix _).isInfix, fun d hd => List.mem_takeWhile_imp hd⟩,
        (takeFraction_suffix _).trans (List.dropWhile_suffix isDigit)⟩
  unfold take? at h
  split at h
  · obtain ⟨⟨hwithin, hdigits⟩, hrest⟩ := hunsigned h
    exact ⟨⟨hwithin.trans (List.suffix_cons _ _).isInfix, hdigits⟩,
      hrest.trans (List.suffix_cons _ _)⟩
  · exact hunsigned h

theorem within_of_ofText? (h : ofText? cs = some n) : n.Within cs := by
  unfold ofText? at h
  split at h
  · next htake =>
    cases h
    exact (of_take? htake).1
  · cases h

end Numeral

theorem one_lt_tooLong : 1 < Value.tooLong := by
  unfold Value.tooLong
  exact Numeral.digitsValue_lt_pow (show ['1'].length ≤ Numeral.maxDigits by decide)

/-- The literal can be written. -/
def Literal.Shown (l : Literal) : Prop := (Value.ofLiteral l).isShowable = true

/-- A numeral of a text with short numbers has a literal that can be written. -/
theorem Numeral.exists_literal (hcs : ShortRuns cs) (hn : n.Within cs) :
    ∃ l, n.literal = .ok l ∧ l.Shown := by
  unfold literal
  cases n.fraction with
  | some => exact ⟨_, rfl, rfl⟩
  | none =>
    have hlength : n.whole.length ≤ maxDigits := hcs _ hn.1 hn.2
    have hsize : (signed n.negative (digitsValue n.whole)).natAbs = digitsValue n.whole := by
      cases n.negative <;> simp [signed]
    refine ⟨_, if_neg (Nat.not_lt.2 hlength), ?_⟩
    rw [Literal.Shown, Value.ofLiteral, Value.isShowable, hsize, decide_eq_true_eq]
    unfold Value.tooLong
    exact digitsValue_lt_pow hlength

/-- The parameter can be written. -/
def Parameter.Shown (p : Parameter) : Prop := p.literal.Shown

/-! Reading. -/

namespace Spec

/-- An item is taken from the front of a text, and a number that it is from there too. -/
theorem of_takeItem? {edge edge' : Edge} {i : Item}
    (h : takeItem? edge cs = some (i, edge', rest)) :
    rest <:+ cs ∧ ∀ n, i = .number n → n.Within cs := by
  cases cs with
  | nil => cases h
  | cons c cs =>
    rw [takeItem?] at h
    split at h
    · obtain ⟨⟨j, r⟩, hj, heq⟩ := Option.map_eq_some_iff.1 h
      cases heq
      unfold quotedItem? at hj
      split at hj
      · cases hj
        have hdrop := (List.drop_suffix 1 _).trans
          (List.dropWhile_suffix (l := cs) fun d => decide (d ≠ '"'))
        exact ⟨hdrop.trans (List.suffix_cons c cs), by simp⟩
      · cases hj
    · split at h
      · cases h
        refine ⟨(List.dropWhile_suffix isNameChar).trans (List.suffix_cons c cs), fun n hn => ?_⟩
        unfold wordItem at hn
        split at hn
        · cases hn
        · split at hn
          · cases hn
          · split at hn <;> cases hn
      · obtain ⟨⟨j, r⟩, hj, heq⟩ := Option.map_eq_some_iff.1 h
        cases heq
        unfold numberItem? at hj
        split at hj
        · next htake =>
          split at hj
          · cases hj
          · cases hj
            obtain ⟨hwithin, hrest⟩ := Numeral.of_take? htake
            exact ⟨hrest, fun n hn => by cases hn; exact hwithin⟩
        · cases hj

theorem within_of_mem_items {edge : Edge} (h : .number n ∈ items edge cs) : n.Within cs := by
  fun_induction items edge cs with
  | case1 edge cs i edge' rest htake ih =>
    rcases List.mem_cons.1 h with rfl | h
    · exact (of_takeItem? htake).2 _ rfl
    · obtain ⟨hwithin, hdigits⟩ := ih h
      exact ⟨hwithin.trans (of_takeItem? htake).1.isInfix, hdigits⟩
  | case2 => cases h
  | case3 edge c cs htake ih =>
    obtain ⟨hwithin, hdigits⟩ := ih h
    exact ⟨hwithin.trans (List.suffix_cons c cs).isInfix, hdigits⟩

theorem shown_of_nameItems {is before : List Item} {given : List String}
    (his : ∀ i ∈ is, ∀ l, i.literal? = some (.ok l) → l.Shown)
    (h : nameItems before given is = .ok ps) : ∀ p ∈ ps, p.Shown := by
  induction is generalizing before given ps with
  | nil =>
    cases h
    simp
  | cons i is ih =>
    obtain ⟨hi, his⟩ := List.forall_mem_cons.1 his
    rw [nameItems] at h
    split at h
    · exact ih his h
    · next literal hliteral =>
      obtain ⟨l, rfl, hnamed⟩ := bind_eq_ok.1 h
      obtain ⟨rest, hrest, hnamed⟩ := bind_eq_ok.1 hnamed
      cases hnamed
      exact List.forall_mem_cons.2 ⟨hi l hliteral, ih his hrest⟩

/-- Statements with short numbers have literals, all of which can be written. -/
theorem exists_extract (h : ShortRuns statement.toList) :
    ∃ ps, extract statement = .ok ps ∧ ∀ p ∈ ps, p.Shown := by
  have hfits : ∀ i ∈ items .free statement.toList, i.fits = true := by
    intro i hi
    cases i with
    | number n =>
      have hn := within_of_mem_items hi
      have hlength : n.whole.length ≤ Numeral.maxDigits := h _ hn.1 hn.2
      simp [Item.fits, hlength]
    | _ => rfl
  obtain ⟨ps, hps⟩ := exists_nameItems hfits [] []
  refine ⟨ps, hps, shown_of_nameItems (fun i hi l hl => ?_) hps⟩
  cases i with
  | word => cases hl
  | quoted => cases hl; rfl
  | truth => cases hl; rfl
  | number n =>
    obtain ⟨l', hl', hshown⟩ := Numeral.exists_literal h (within_of_mem_items hi)
    simp only [Item.literal?, hl'] at hl
    cases hl
    exact hshown

/-- The numbers of a text are short and its lines can be numbered. -/
structure Moderate (text : String) : Prop where
  runs : ShortRuns text.toList
  lines : (lines text.toList).length < Value.tooLong

theorem length_lines_le (cs : List Char) : (lines cs).length ≤ cs.length := by
  fun_induction lines cs with
  | case1 => exact Nat.le_refl 0
  | case2 cs ih =>
    simp only [List.length_cons]
    omega
  | case3 c cs _ _ ih => exact Nat.succ_le_succ ih
  | case4 c cs _ _ ih =>
    unfold consLine
    split
    · simp
    · next l ls heq =>
      rw [heq] at ih
      exact Nat.le_succ_of_le ih

theorem lt_pow_of_le {n : Nat} (h : n ≤ k) : n < Nat.pow 10 k :=
  Nat.lt_of_le_of_lt h (Nat.lt_pow_self (by decide))

/-- A short text has short numbers only. -/
theorem moderate_of_length (h : text.toList.length ≤ Numeral.maxDigits) : Moderate text := by
  refine ⟨fun ds hds _ => hds.length_le.trans h, ?_⟩
  unfold Value.tooLong
  exact lt_pow_of_le ((length_lines_le text.toList).trans h)

variable {l : List Char × Nat} {previous : Option Kind} {source : Option String}

theorem shortRuns_statementOf (h : ShortRuns text.toList) (hl : l ∈ trimmedLines text) :
    ShortRuns (statementOf l.1) := by
  obtain ⟨line, hline, hl⟩ := List.mem_map.1 (List.fst_mem_of_mem_zipIdx hl)
  have hbody : statementOf l.1 <:+: l.1 :=
    (trim_isInfix _).trans ((List.dropLast_prefix _).isInfix.trans (List.drop_suffix _ _).isInfix)
  rw [← hl] at hbody ⊢
  exact h.mono (hbody.trans ((trim_isInfix line).trans (infix_of_mem_lines line hline)))

theorem Moderate.number_lt (h : Moderate text) (hl : l ∈ trimmedLines text) :
    l.2 < Value.tooLong := by
  have hnumber := (List.mem_zipIdx hl).2.1
  have hlines := h.lines
  rw [List.length_map] at hnumber
  omega

theorem tokensFrom_ne_misfit {n : Nat} {ls : List (List Char)} :
    tokensFrom n ls ≠ .error (.misfit m) := by
  induction ls generalizing n with
  | nil => simp [tokensFrom]
  | cons l ls ih =>
    rw [tokensFrom]
    split
    · simp
    · intro h
      rcases bind_eq_error.1 h with h | ⟨_, -, h⟩
      · exact ih h
      · cases h

/-- What is in the tokens of a moderate text. -/
structure Token.Moderate (t : Token) : Prop where
  number : t.number < Value.tooLong
  runs : ∀ lead statement, t.line = .step lead statement → ShortRuns statement.toList

theorem Moderate.token (h : Moderate text) (hts : tokens text = .ok ts) : ∀ t ∈ ts, t.Moderate := by
  obtain ⟨-, rfl⟩ := tokens_eq_ok.1 hts
  refine List.forall_mem_map.2 fun l hl => ⟨h.number_lt hl, fun lead statement hline => ?_⟩
  have hstep : isStepLine l.1 = true := by
    rw [← isStep_lineOf]
    change lineOf l.1 = _ at hline
    rw [hline]
    rfl
  change lineOf l.1 = _ at hline
  rw [lineOf_of_isStepLine hstep] at hline
  cases hline
  rw [String.toList_ofList]
  exact shortRuns_statementOf h.runs hl

theorem readSteps_ne_misfit (h : ∀ t ∈ ts, t.Moderate) :
    readSteps previous ts ≠ .error (.misfit m) := by
  induction ts generalizing previous with
  | nil => simp [readSteps]
  | cons t ts ih =>
    obtain ⟨ht, hts⟩ := List.forall_mem_cons.1 h
    obtain ⟨line, n⟩ := t
    cases line with
    | step lead statement =>
      rw [readSteps]
      split
      · simp
      · obtain ⟨ps, hps, -⟩ := exists_extract (ht.runs lead statement rfl)
        rw [hps]
        intro herror
        rcases bind_eq_error.1 herror with herror | ⟨_, -, herror⟩
        · cases herror
        · rcases bind_eq_error.1 herror with herror | ⟨_, -, herror⟩
          · exact ih hts herror
          · cases herror
    | _ => exact ih hts

theorem readScenario_ne_misfit {block : List Token} (h : ∀ t ∈ block, t.Moderate) :
    readScenario block ≠ .error (.misfit m) := by
  intro herror
  rcases bind_eq_error.1 herror with herror | ⟨steps, -, herror⟩
  · exact readSteps_ne_misfit h herror
  · split at herror <;> cases herror

/-- All that can be wrong with a moderate text is a problem of its own. -/
theorem problem_of_parse (h : Moderate text) {f : Fault} (hf : parse text source = .error f) :
    ∃ p, f = .problem p := by
  unfold parse at hf
  cases hread : tokens text >>= readTokens (sourceName source) with
  | ok s =>
    rw [hread] at hf
    cases hf
  | error slip =>
    rw [hread] at hf
    cases hf
    cases slip with
    | flaw => exact ⟨_, rfl⟩
    | misfit m =>
      rcases bind_eq_error.1 hread with herror | ⟨ts, hts, herror⟩
      · exact absurd herror tokensFrom_ne_misfit
      · rcases bind_eq_error.1 herror with herror | ⟨scenarios, -, herror⟩
        · obtain ⟨b, hb, herror⟩ := exists_error_of_mapM herror
          refine absurd herror (readScenario_ne_misfit fun t ht => ?_)
          exact h.token hts t (mem_of_mem_blocks _ (List.mem_of_mem_filter hb) t ht)
        · dsimp only at herror
          split at herror
          · unfold noScenarios at herror
            split at herror <;> cases herror
          · cases herror

/-- What is in a step can be written, and its numbers are short. -/
structure Step.Moderate (s : Step Nat) : Prop where
  runs : ShortRuns s.text.toList
  parameters : ∀ p ∈ s.parameters, p.Shown
  line : s.line < Value.tooLong

structure Scenario.Moderate (s : Scenario String Nat) : Prop where
  steps : ∀ t ∈ s.steps, t.Moderate
  line : s.line < Value.tooLong

theorem moderate_of_readSteps (h : ∀ t ∈ ts, t.Moderate) {steps : List (Step Nat)}
    (hsteps : readSteps previous ts = .ok steps) : ∀ s ∈ steps, s.Moderate := by
  refine forall_of_readSteps (fun lead statement n k ps ht hps => ?_) h hsteps
  have hruns := ht.runs lead statement rfl
  obtain ⟨ps', hps', hshown⟩ := exists_extract hruns
  cases hps.symm.trans hps'
  exact ⟨hruns, hshown, ht.number⟩

theorem Moderate.scenario (h : Moderate text) {s : Spec} (hs : parse text source = .ok s) :
    ∀ scenario ∈ s.scenarios, scenario.Moderate := by
  obtain ⟨hbodies, scenarios, hscenarios, -, rfl⟩ := parse_eq_ok.1 hs
  have htokens := h.token (tokens_eq_ok.2 ⟨hbodies, rfl⟩)
  intro scenario hscenario
  obtain ⟨block, hblock, hread⟩ := exists_of_mem_mapM hscenarios scenario hscenario
  have hblock : ∀ t ∈ block, t.Moderate :=
    fun t ht => htokens t (mem_of_mem_blocks _ (List.mem_of_mem_filter hblock) t ht)
  obtain ⟨steps, hsteps, -, rfl⟩ := readScenario_eq_ok.1 hread
  refine ⟨moderate_of_readSteps hblock hsteps, ?_⟩
  unfold firstLine
  cases hhead : block.head? with
  | none => exact one_lt_tooLong
  | some t => exact (hblock t (List.mem_of_head? hhead)).number

end Spec

/-! Holding statements against a registry. -/

theorem Registry.infix_of_splits {ps : List Piece} {caps : List (List Char)}
    (h : Splits ps cs caps) : ∀ cap ∈ caps, cap <:+: cs := by
  induction h with
  | nil => simp
  | char _ ih => exact fun cap hcap => (ih cap hcap).trans (List.suffix_cons _ _).isInfix
  | hole _ _ ih =>
    refine List.forall_mem_cons.2 ⟨(List.prefix_append _ _).isInfix, fun cap hcap => ?_⟩
    exact (ih cap hcap).trans (List.suffix_append _ _).isInfix

theorem Template.infix_of_captures? {t : Template} {captured : List (String × String)}
    (h : t.captures? statement = some captured) :
    ∀ c ∈ captured, c.2.toList <:+: statement.toList := by
  obtain ⟨pattern, -, h⟩ := Option.bind_eq_some_iff.1 h
  obtain ⟨caps, hfit, rfl⟩ := Option.map_eq_some_iff.1 h
  intro c hc
  obtain ⟨cap, hcap, heq⟩ := List.mem_map.1 (List.of_mem_zip hc).2
  rw [← heq, String.toList_ofList]
  exact Registry.infix_of_splits (Registry.splits_of_fit hfit) cap hcap

/-- What is captured from a statement with short numbers is of the type asked for or is not. -/
theorem coerce_of_shortRuns {name : String} (h : ShortRuns text.toList) (type : HoleType)
    (quoted : Bool) : (∃ p, coerce name text type quoted = .ok p ∧ p.Shown) ∨
      ∃ m, coerce name text type quoted = .error (.mismatch m) := by
  unfold coerce
  cases type.literalType quoted text with
  | text => exact .inl ⟨_, rfl, rfl⟩
  | boolean =>
    simp only [readLiteral]
    split
    · exact .inl ⟨_, rfl, rfl⟩
    · split
      · exact .inl ⟨_, rfl, rfl⟩
      · exact .inr ⟨_, rfl⟩
  | number =>
    simp only [readLiteral]
    cases hnumeral : Numeral.ofText? text.toList with
    | none => exact .inr ⟨_, rfl⟩
    | some n =>
      obtain ⟨l, hl, hshown⟩ := Numeral.exists_literal h (Numeral.within_of_ofText? hnumeral)
      simp only [hl]
      exact .inl ⟨_, rfl, hshown⟩

/-- All parameters of the binding can be written. -/
structure Binding.Shown (b : Binding String Parameter) : Prop where
  args : ∀ p ∈ b.args, p.Shown
  expected : ∀ p ∈ b.expected, p.Shown

/-- The constants of a registry can be written. -/
def Registry.Shown (r : Registry) : Prop := ∀ t ∈ r.templates, ∀ l ∈ t.constant, l.Shown

namespace Template

variable {t : Template} {captured : List (String × String)}

theorem bind_of_shortRuns (h : ∀ c ∈ captured, ShortRuns c.2.toList) :
    (∃ b, t.bind captured = .ok b) ∨ ∃ m, t.bind captured = .error (.mismatch m) := by
  cases hbind : t.bind captured with
  | ok b => exact .inl ⟨b, rfl⟩
  | error e =>
    rcases bind_eq_error.1 hbind with herror | ⟨parameters, -, herror⟩
    · obtain ⟨⟨hole, c⟩, hmem, hcoerce⟩ := exists_error_of_mapM herror
      rcases coerce_of_shortRuns (h c (List.of_mem_zip hmem).2) hole.2
        (Registry.quotesHole t.pattern.visible hole.1) with ⟨p, hp, -⟩ | ⟨m, hm⟩
      · cases hp.symm.trans hcoerce
      · cases hm.symm.trans hcoerce
        exact .inr ⟨m, rfl⟩
    · split at herror <;> cases herror

theorem shown_of_bind (h : ∀ c ∈ captured, ShortRuns c.2.toList) (hconstant : ∀ l ∈ t.constant, l.Shown)
    {b : Binding String Parameter} (hb : t.bind captured = .ok b) : b.Shown := by
  obtain ⟨parameters, hparameters, hb⟩ := bind_eq_ok.1 hb
  have hshown : ∀ p ∈ parameters, p.Shown := by
    intro p hp
    obtain ⟨⟨hole, c⟩, hmem, hcoerce⟩ := exists_of_mem_mapM hparameters p hp
    rcases coerce_of_shortRuns (h c (List.of_mem_zip hmem).2) hole.2
      (Registry.quotesHole t.pattern.visible hole.1) with ⟨q, hq, hshown⟩ | ⟨m, hm⟩
    · cases hq.symm.trans hcoerce
      exact hshown
    · cases hm.symm.trans hcoerce
  split at hb
  · cases hb
    refine ⟨hshown, fun p hp => ?_⟩
    obtain ⟨l, hl, rfl⟩ := Option.map_eq_some_iff.1 hp
    exact hconstant l hl
  · cases hb
    exact ⟨fun p hp => hshown p (List.mem_of_mem_filter hp),
      fun p hp => hshown p (List.mem_of_find?_eq_some hp)⟩

end Template

/-- A statement with short numbers is resolved or is not, and what resolves it can be written. -/
theorem Registry.exists_resolve {r : Registry} (hr : r.Shown) (h : ShortRuns statement.toList)
    (k : Kind) :
    ∃ finding, r.resolve k statement = .ok finding ∧ ∀ b, finding = .resolved b → b.Shown := by
  have hcaptured {t : Template} {captured : List (String × String)}
      (hc : t.captures? (normalize statement) = some captured) :
      ∀ c ∈ captured, ShortRuns c.2.toList :=
    fun c hmem => h.normalize.mono (Template.infix_of_captures? hc c hmem)
  have hattempt (t : Template) : ∃ a, t.attempt (normalize statement) = .ok a := by
    unfold Template.attempt
    split
    · exact ⟨_, rfl⟩
    · next captured hc =>
      rcases Template.bind_of_shortRuns (hcaptured hc) with ⟨b, hb⟩ | ⟨m, hm⟩
      · rw [hb]
        exact ⟨_, rfl⟩
      · rw [hm]
        exact ⟨_, rfl⟩
  obtain ⟨tried, htried⟩ : ∃ tried, (r.ofKind k).mapM (hold (normalize statement)) = .ok tried := by
    refine mapM_isOk.2 fun t _ => ?_
    obtain ⟨a, ha⟩ := hattempt t
    exact ⟨(t, a), hold_eq_ok.2 ⟨rfl, ha⟩⟩
  have hresolve := resolve_eq_ok.2 ⟨tried, htried, rfl⟩
  refine ⟨_, hresolve, fun b hb => ?_⟩
  rw [hb] at hresolve
  obtain ⟨t, ht, captured, hc, hbind⟩ := exists_bind_of_resolve hresolve
  exact Template.shown_of_bind (hcaptured hc) (hr t (List.mem_of_mem_filter ht)) hbind

/-! Plans. -/

namespace Plan

/-- What is in a step of a plan can be written, and its numbers are short. -/
structure Step.Moderate (s : DraftStep Nat) : Prop where
  runs : ShortRuns s.statement.toList
  parameters : ∀ p ∈ s.parameters, p.Shown
  resolution : ∀ b, s.resolution = .resolved b → b.Shown
  line : s.line < Value.tooLong

structure Scenario.Moderate (s : DraftScenario Nat) : Prop where
  steps : ∀ t ∈ s.steps, t.Moderate
  line : s.line < Value.tooLong

def Document.Moderate (p : Plan) : Prop := ∀ s ∈ p.scenarios, s.Moderate

theorem moderate_of_ofSpec {s : Spec} (hs : ∀ scenario ∈ s.scenarios, scenario.Moderate) {p : Plan}
    (hp : ofSpec s = .ok p) : p.Moderate := by
  obtain ⟨rfl, -⟩ := ofSpec_cases hp
  refine List.forall_mem_map.2 fun scenario hmem => ?_
  have hscenario := hs scenario hmem
  refine ⟨List.forall_mem_map.2 fun t ht => ?_, hscenario.line⟩
  have hstep := hscenario.steps t ht
  refine ⟨hstep.runs.normalize, hstep.parameters, fun b hb => ?_, hstep.line⟩
  cases hb

/-- A plan with short numbers can be resolved, and then it is one again. -/
theorem Document.Moderate.exists_resolve {r : Registry} (hr : r.Shown) {p : Plan} (hp : p.Moderate) :
    ∃ d, p.resolve r = .ok d ∧ d.Moderate := by
  have hstep {t : DraftStep Nat} (ht : t.Moderate) : ∃ t', t.resolve r = .ok t' := by
    obtain ⟨finding, hfinding, -⟩ := Registry.exists_resolve hr ht.runs t.kind
    exact ⟨_, bind_eq_ok.2 ⟨finding, hfinding, rfl⟩⟩
  obtain ⟨scenarios, hscenarios⟩ : ∃ ss, p.scenarios.mapM (·.resolve r) = .ok ss := by
    refine mapM_isOk.2 fun s hs => ?_
    obtain ⟨steps, hsteps⟩ := mapM_isOk.2 fun t ht => hstep ((hp s hs).steps t ht)
    exact ⟨_, bind_eq_ok.2 ⟨steps, hsteps, rfl⟩⟩
  refine ⟨_, bind_eq_ok.2 ⟨scenarios, hscenarios, rfl⟩, fun s hs => ?_⟩
  obtain ⟨s₀, hs₀, hs⟩ := exists_of_mem_mapM hscenarios s hs
  obtain ⟨steps, hsteps, hs⟩ := bind_eq_ok.1 hs
  cases hs
  refine ⟨fun t ht => ?_, (hp s₀ hs₀).line⟩
  obtain ⟨t₀, ht₀, ht⟩ := exists_of_mem_mapM hsteps t ht
  have hmoderate := (hp s₀ hs₀).steps t₀ ht₀
  obtain ⟨finding, hfinding, hshown⟩ := Registry.exists_resolve hr hmoderate.runs t₀.kind
  obtain ⟨finding', hsame, ht⟩ := bind_eq_ok.1 ht
  cases hfinding.symm.trans hsame
  cases ht
  exact ⟨hmoderate.runs, hmoderate.parameters, hshown, hmoderate.line⟩

/-! Writing. -/

/-- The data can be written. -/
abbrev Showable (v : Value) : Prop := v.isShowable = true

/-- Data can be written if its scalars can. -/
theorem showable_of_plain {v : Value} (h : Json.Plain Showable k v) : Showable v := by
  induction h with
  | scalar hv => exact hv
  | list _ ih => exact Json.isShowable_list.2 ih
  | record _ _ ih => exact Json.isShowable_record.2 ih

theorem covers_showable : Covers Showable := ⟨rfl, fun _ => rfl, fun _ => rfl⟩

theorem showable_ofPhrase (p : Phrase) : Json.Plain Showable 0 (.ofPhrase p) := by
  apply Json.Plain.scalar
  unfold Showable Value.ofPhrase Value.ofPoints
  split <;> rfl

theorem showable_line {n : Nat} (h : n < Value.tooLong) : Json.Plain Showable 0 (toValue n) := by
  apply Json.Plain.scalar
  change decide ((n : Int).natAbs < Value.tooLong) = true
  rw [Int.natAbs_natCast]
  exact decide_eq_true h

theorem holds_ofParameters (h : ∀ p ∈ ps, p.Shown) :
    ∀ p ∈ ps.map StoredParameter.ofParameter, p.Holds (Json.Plain Showable 0) :=
  List.forall_mem_map.2 fun p hp => ⟨.scalar rfl, .scalar (h p hp)⟩

theorem Step.Moderate.holds {t : DraftStep Nat} (h : t.Moderate) :
    stepHolds (Json.Plain Showable 0) (t.map .text .ofPhrase .ofParameter toValue) := by
  refine ⟨.scalar rfl, holds_ofParameters h.parameters, ?_, showable_line h.line⟩
  change resolutionHolds (Json.Plain Showable 0) (t.resolution.map _ _ _)
  cases hresolution : t.resolution with
  | resolved b =>
    have hb := h.resolution b hresolution
    refine ⟨.scalar rfl, holds_ofParameters hb.args, fun p hp => ?_⟩
    obtain ⟨q, hq, rfl⟩ := Option.map_eq_some_iff.1 hp
    exact ⟨.scalar rfl, .scalar (hb.expected q hq)⟩
  | ambiguous =>
    exact ⟨List.forall_mem_map.2 fun _ _ => .scalar rfl,
      List.forall_mem_map.2 fun p _ => showable_ofPhrase p⟩
  | unresolved => exact ⟨showable_ofPhrase _, List.forall_mem_map.2 fun p _ => showable_ofPhrase p⟩

/-- A plan with short numbers can be written. -/
theorem Document.Moderate.exists_write {d : Plan} (h : d.Moderate) :
    ∃ text, write d.stored = .ok text := by
  have hholds : d.stored.Holds (Json.Plain Showable 0) := by
    refine ⟨.scalar rfl, .scalar rfl, List.forall_mem_map.2 fun s hs => ?_⟩
    refine ⟨.scalar rfl, .scalar rfl, List.forall_mem_map.2 fun t ht => ?_, showable_line (h s hs).line⟩
    exact ((h s hs).steps t ht).holds
  exact ⟨_, if_pos (showable_of_plain (plain_record covers_showable hholds))⟩

end Plan
end Acceptance

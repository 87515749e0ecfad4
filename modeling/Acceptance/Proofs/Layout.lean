import Acceptance.Proofs.Grammar
import Acceptance.Proofs.SpacedLiterals
/-!
Layout. How the lines of a spec are spaced, indented, ended and set apart does not matter: texts with
the same lines but for this are read alike, and the same plan is made of them.
-/
namespace Acceptance

variable {a b text : String}

namespace Text

variable {r : Region} {c : Char} {cs ds p : List Char}

/-- A word occurs in a text or not whatever blanks are around the text. -/
theorem occurs_trim (hne : p ≠ []) (hp : ∀ c ∈ p, isBlank c = false) (cs : List Char) :
    occurs p (trim cs) = occurs p cs := by
  have hstart {p cs : List Char} (hne : p ≠ []) (hp : ∀ c ∈ p, isBlank c = false) :
      p <:+: trimStart cs ↔ p <:+: cs := by
    refine ⟨fun h => h.trans (List.dropWhile_suffix isBlank).isInfix, fun h => ?_⟩
    induction cs with
    | nil => exact h
    | cons c cs ih =>
      cases hc : isBlank c with
      | false => rwa [trimStart_cons hc]
      | true =>
        rw [trimStart_cons_blank hc]
        refine ih ((List.infix_cons_iff.1 h).resolve_left fun hpre => ?_)
        obtain ⟨d, q, rfl⟩ := List.exists_cons_of_ne_nil hne
        obtain rfl := (List.cons_prefix_cons.1 hpre).1
        exact absurd (hc.symm.trans (hp d List.mem_cons_self)) (by decide)
  have hend : p <:+: trimEnd (trimStart cs) ↔ p <:+: trimStart cs := by
    rw [trimEnd, ← List.reverse_infix, List.reverse_reverse]
    refine (hstart (by simpa using hne) (by simpa using hp)).trans ?_
    rw [List.reverse_infix]
  rw [Bool.eq_iff_iff, occurs_iff, occurs_iff]
  exact hend.trans (hstart hne hp)

theorem count_quote_collapse (r : Region) (cs : List Char) :
    (collapse r cs).count '"' = cs.count '"' := by
  induction cs generalizing r with
  | nil => cases r <;> rfl
  | cons c cs ih =>
    have hblank (hc : isBlank c = true) : (c :: cs).count '"' = cs.count '"' := by
      refine List.count_cons_of_ne ?_
      rintro rfl
      exact absurd hc (by decide)
    have hspace : (' ' :: collapse .gap cs).count '"' = cs.count '"' := by
      rw [List.count_cons_of_ne (by decide), ih]
    cases r <;> rw [collapse]
    · split_ifs with hquote hin hc
      · rw [List.count_cons, List.count_cons, ih]
      · rw [List.count_cons, List.count_cons, ih]
      · rw [hspace, hblank hc]
      · rw [List.count_cons, List.count_cons, ih]
    · split_ifs with hquote hin hc
      · rw [List.count_cons, List.count_cons, ih]
      · rw [List.count_cons, List.count_cons, ih]
      · rw [ih, hblank hc]
      · rw [List.count_cons, List.count_cons, ih]
    · rw [List.count_cons, List.count_cons, ih]

theorem count_quote_respace (cs : List Char) : (respace cs).count '"' = cs.count '"' := by
  have hend (cs : List Char) : (trimEnd cs).count '"' = cs.count '"' := by
    rw [trimEnd, List.count_reverse]
    exact (count_trimStart (by decide) cs.reverse).trans List.count_reverse
  rw [respace, trim, hend, count_trimStart (by decide), count_quote_collapse]

/-- The last character stays, if it is not blank. -/
theorem collapse_append_singleton (hc : isBlank c = false) (r : Region) (cs : List Char) :
    ∃ ds, collapse r (cs ++ [c]) = ds ++ [c] := by
  induction cs generalizing r with
  | nil =>
    refine ⟨[], ?_⟩
    cases r <;> simp [collapse, hc]
  | cons d cs ih =>
    have hkept (e : Char) (r' : Region) : ∃ ds, e :: collapse r' (cs ++ [c]) = ds ++ [c] := by
      obtain ⟨ds, hds⟩ := ih r'
      exact ⟨e :: ds, by rw [hds, List.cons_append]⟩
    cases r <;> rw [List.cons_append, collapse]
    · split_ifs <;> exact hkept _ _
    · split_ifs
      · exact hkept _ _
      · exact hkept _ _
      · exact ih .gap
      · exact hkept _ _
    · exact hkept _ _

theorem getLast?_respace (h : trimEnd cs = cs) : (respace cs).getLast? = cs.getLast? := by
  rcases List.eq_nil_or_concat cs with rfl | ⟨ds, c, rfl⟩
  · rfl
  · have hc : isBlank c = false := by
      rw [trimEnd_eq_rdropWhile, List.rdropWhile_eq_self_iff] at h
      simpa using h (by simp)
    obtain ⟨es, hes⟩ := collapse_append_singleton hc .plain ds
    rw [List.concat_eq_append, respace, hes, trim_append_singleton hc]
    simp

theorem respace_append_period (cs : List Char) :
    respace (cs ++ ['.']) = trimStart (collapse .plain cs) ++ ['.'] := by
  have hquote : '"' ∉ ['.'] := by decide
  obtain ⟨r, hr⟩ := collapse_append hquote cs
  have hperiod : collapse r ['.'] = ['.'] := by cases r <;> rfl
  rw [respace, hr, hperiod, trim_append_singleton (by decide)]

theorem respace_eq_nil : respace cs = [] ↔ ∀ c ∈ cs, isBlank c = true := by
  rw [respace, trim_eq_nil]
  constructor
  · intro h c hc
    by_contra hno
    have hblank := eq_false_of_ne_true hno
    exact hno (h c (mem_collapse_of_mem hc hblank))
  · intro h c hc
    rcases mem_of_mem_collapse hc with hc | rfl
    · exact h c hc
    · decide

end Text

namespace Plan

variable {τ η π ν : Type}

def Step.withoutLine (s : Step τ η π ν) : Step τ η π Unit := { s with line := () }

def Scenario.withoutLines (s : Scenario τ η π ν) : Scenario τ η π Unit :=
  { s with steps := s.steps.map (·.withoutLine), line := () }

/-- What a plan says, without where in the spec it says it. -/
def Document.withoutLines (d : Document τ η π ν) : Document τ η π Unit :=
  { d with scenarios := d.scenarios.map (·.withoutLines) }

end Plan

namespace Spec

open Text

/-- The lines of each maximal run of lines that are not blank. -/
def lineBlocks (text : String) : List (List (List Char × Nat)) :=
  ((trimmedLines text).splitOnP (·.1.isEmpty)).filter (!·.isEmpty)

/-- Comments with the same words, or steps with the same lead and the same words. -/
def SameLine (l m : List Char) : Prop :=
  l.head? = some ';' ∧ m.head? = some ';' ∧ trim l.tail = trim m.tail ∨
    isStepLine l = true ∧ isStepLine m = true ∧ leadOf l = leadOf m ∧
      respace (bodyOf l) = respace (bodyOf m)

instance (l m : List Char) : Decidable (SameLine l m) := inferInstanceAs (Decidable (_ ∨ _))

/-- Texts whose blocks have the same lines, one after another. -/
def SameLayout (a b : String) : Prop :=
  List.Forall₂ (List.Forall₂ fun l m => SameLine l.1 m.1) (lineBlocks a) (lineBlocks b)

instance (a b : String) : Decidable (SameLayout a b) :=
  inferInstanceAs (Decidable (List.Forall₂ _ _ _))

theorem SameLine.symm {l m : List Char} (h : SameLine l m) : SameLine m l := by
  rcases h with ⟨hl, hm, htext⟩ | ⟨hl, hm, hlead, hbody⟩
  · exact .inl ⟨hm, hl, htext.symm⟩
  · exact .inr ⟨hm, hl, hlead.symm, hbody.symm⟩

theorem SameLayout.symm (h : SameLayout a b) : SameLayout b a :=
  List.Forall₂.flip (h.imp fun _ _ hblock => List.Forall₂.flip (hblock.imp fun _ _ hline => hline.symm))

/-! Lines. -/

/-- Bodies with the same words have the same words before their periods. -/
theorem respace_dropLast {b c : List Char} (hb : b.getLast? = some '.') (hc : c.getLast? = some '.')
    (h : respace b = respace c) : respace b.dropLast = respace c.dropLast := by
  rw [← List.dropLast_append_getLast? '.' hb, ← List.dropLast_append_getLast? '.' hc,
    respace_append_period, respace_append_period] at h
  rw [respace, trim, List.append_cancel_right h]
  rfl

theorem IsBody.of_respace {b c : List Char} (h : IsBody b) (hb : trimEnd b = b) (hc : trimEnd c = c)
    (heq : respace b = respace c) : IsBody c := by
  have hperiod : c.getLast? = some '.' := by
    rw [← getLast?_respace hc, ← heq, getLast?_respace hb, h.period]
  refine ⟨?_, hperiod, ?_⟩
  · rw [← count_quote_respace, ← heq, count_quote_respace]
    exact h.quotes
  · by_contra hno
    have hnil : respace c.dropLast = [] :=
      respace_eq_nil.2 fun d hd => by_contra fun hd' => hno ⟨d, hd, eq_false_of_ne_true hd'⟩
    rw [← respace_dropLast h.period hperiod heq, respace_eq_nil] at hnil
    obtain ⟨d, hd, hblank⟩ := h.words
    exact absurd ((hnil d hd).symm.trans hblank) (by decide)

/-- Lines that say the same: steps with one statement but for its spaces, or the same comment. -/
inductive Line.Alike : Line → Line → Prop
  | silent {l m : Line} (left : l.isStep = false) (right : m.isStep = false)
      (comment : l.comment? = m.comment?) : Alike l m
  | step {lead : Lead} {s t : String} (same : Text.normalize s = Text.normalize t) :
      Alike (.step lead s) (.step lead t)

theorem Line.Alike.isStep {l m : Line} (h : l.Alike m) : l.isStep = m.isStep := by
  cases h with
  | silent left right => rw [left, right]
  | step => rfl

theorem Line.Alike.comment? {l m : Line} (h : l.Alike m) : l.comment? = m.comment? := by
  cases h with
  | silent _ _ comment => exact comment
  | step => rfl

/-- Lines that differ in their spaces only are read alike. -/
theorem SameLine.alike {l m : List Char} (h : SameLine l m)
    (hl : isStepLine l = true → IsBody (bodyOf l)) (hm : isStepLine m = true → IsBody (bodyOf m)) :
    (lineOf l).Alike (lineOf m) := by
  rcases h with ⟨hhead, hhead', htext⟩ | ⟨hstep, hstep', hlead, hbody⟩
  · obtain ⟨l, rfl⟩ := List.head?_eq_some_iff.1 hhead
    obtain ⟨m, rfl⟩ := List.head?_eq_some_iff.1 hhead'
    rw [List.tail_cons, List.tail_cons] at htext
    have hbar : occurs "===".toList l = occurs "===".toList m := by
      have hword : ∀ c ∈ "===".toList, isBlank c = false := forall_mem_of_all (by decide)
      rw [← occurs_trim (by decide) hword l, htext, occurs_trim (by decide) hword]
    rw [lineOf, lineOf, hbar, htext]
    split
    · exact .silent rfl rfl rfl
    · exact .silent rfl rfl rfl
  · rw [lineOf_of_isStepLine hstep, lineOf_of_isStepLine hstep', hlead]
    refine .step ?_
    rw [Text.normalize, Text.normalize, String.toList_ofList, String.toList_ofList, statementOf,
      statementOf, respace_trim, respace_trim, respace_dropLast (hl hstep).period (hm hstep').period hbody]

/-! Blocks. -/

theorem mem_lineBlocks {block : List (List Char × Nat)} (h : block ∈ lineBlocks text) :
    ∀ l ∈ block, l ∈ trimmedLines text := by
  intro l hl
  have hflat : l ∈ ((trimmedLines text).splitOnP (·.1.isEmpty)).flatten :=
    List.mem_flatten_of_mem (List.mem_filter.1 h).1 hl
  rw [flatten_splitOnP] at hflat
  exact (List.mem_filter.1 hflat).1

theorem exists_block_of_mem {l : List Char × Nat} (h : l ∈ trimmedLines text) (hne : l.1 ≠ []) :
    ∃ block ∈ lineBlocks text, l ∈ block := by
  have hflat : l ∈ ((trimmedLines text).splitOnP (·.1.isEmpty)).flatten := by
    rw [flatten_splitOnP]
    exact List.mem_filter.2 ⟨h, by simpa using hne⟩
  obtain ⟨block, hblock, hl⟩ := List.mem_flatten.1 hflat
  refine ⟨block, List.mem_filter.2 ⟨hblock, ?_⟩, hl⟩
  cases block with
  | nil => cases hl
  | cons => rfl

theorem blocks_eq_map (text : String) :
    blocks ((trimmedLines text).map tokenOf) = (lineBlocks text).map (List.map tokenOf) := by
  have hblank : ((fun t : Token => t.line.isBlank) ∘ tokenOf) = fun l => l.1.isEmpty := by
    funext l
    exact isBlank_lineOf l.1
  rw [blocks_eq_splitOnP, splitOnP_map, hblank, lineBlocks, List.filter_map]
  congr 2
  funext block
  simp

/-- The step lines of a text have bodies. -/
def HasBodies (text : String) : Prop :=
  ∀ l ∈ trimmedLines text, isStepLine l.1 = true → IsBody (bodyOf l.1)

theorem trimEnd_bodyOf {l : List Char × Nat} (h : l ∈ trimmedLines text) :
    trimEnd (bodyOf l.1) = bodyOf l.1 := by
  obtain ⟨line, -, hline⟩ := List.mem_map.1 (List.fst_mem_of_mem_zipIdx h)
  refine trimEnd_of_isSuffix ?_ (List.drop_suffix _ _)
  rw [← hline]
  exact (trimmed_trim line).stop

theorem HasBodies.of_sameLayout (h : SameLayout a b) (ha : HasBodies a) : HasBodies b := by
  intro m hm hstep
  have hne : m.1 ≠ [] := by
    intro hnil
    simp [hnil, isStepLine] at hstep
  obtain ⟨block, hblock, hmem⟩ := exists_block_of_mem hm hne
  obtain ⟨other, hother, hlines⟩ := exists_of_mem_forall₂ h block hblock
  obtain ⟨l, hl, hline⟩ := exists_of_mem_forall₂ hlines m hmem
  have hl := mem_lineBlocks hother l hl
  rcases hline with ⟨-, hcomment, -⟩ | ⟨hstep', -, -, hbody⟩
  · simp [isStepLine, hcomment] at hstep
  · exact (ha l hl hstep').of_respace (trimEnd_bodyOf hl) (trimEnd_bodyOf hm) hbody

/-- Tokens of lines that say the same. -/
def Token.Alike (t u : Token) : Prop := t.line.Alike u.line

theorem SameLayout.alike (h : SameLayout a b) (ha : HasBodies a) :
    List.Forall₂ (List.Forall₂ Token.Alike) (blocks ((trimmedLines a).map tokenOf))
      (blocks ((trimmedLines b).map tokenOf)) := by
  have hb := ha.of_sameLayout h
  rw [blocks_eq_map, blocks_eq_map, List.forall₂_map_left_iff, List.forall₂_map_right_iff]
  refine (forall₂_mem h).imp fun block other hblocks => ?_
  obtain ⟨hblock, hother, hlines⟩ := hblocks
  rw [List.forall₂_map_left_iff, List.forall₂_map_right_iff]
  refine (forall₂_mem hlines).imp fun l m hline => ?_
  obtain ⟨hl, hm, hline⟩ := hline
  exact hline.alike (ha l (mem_lineBlocks hblock l hl)) (hb m (mem_lineBlocks hother m hm))

/-! Scenarios. -/

variable {ts us : List Token}

theorem takeWhile_of_alike (h : List.Forall₂ Token.Alike ts us) :
    List.Forall₂ Token.Alike (ts.takeWhile (!·.line.isStep)) (us.takeWhile (!·.line.isStep)) := by
  induction h with
  | nil => exact .nil
  | @cons t u _ _ hline _ ih =>
    have hstep : t.line.isStep = u.line.isStep := hline.isStep
    rw [List.takeWhile_cons, List.takeWhile_cons, hstep]
    split
    · exact .cons hline ih
    · exact .nil

theorem commentText_of_alike (h : List.Forall₂ Token.Alike ts us) :
    commentText ts = commentText us := by
  have hcomments : ts.filterMap (·.line.comment?) = us.filterMap (·.line.comment?) := by
    induction h with
    | nil => rfl
    | @cons t u _ _ hline _ ih =>
      have hcomment : t.line.comment? = u.line.comment? := hline.comment?
      rw [List.filterMap_cons, List.filterMap_cons, hcomment, ih]
  rw [commentText, hcomments, commentText]

theorem hasStep_of_alike (h : List.Forall₂ Token.Alike ts us) : hasStep ts = hasStep us := by
  induction h with
  | nil => rfl
  | @cons t u _ _ hline _ ih =>
    have hstep : t.line.isStep = u.line.isStep := hline.isStep
    rw [hasStep, hasStep, List.any_cons, List.any_cons, hstep]
    exact congrArg _ ih

theorem extract_eq_of_normalize {s t : String} (h : Text.normalize s = Text.normalize t) :
    extract s = extract t := by
  rw [← extract_normalize s, h, extract_normalize]

/-- Steps that say the same are planned alike. -/
theorem readSteps_of_alike (h : List.Forall₂ Token.Alike ts us) {previous : Option Kind}
    {steps : List (Step Nat)} (hsteps : readSteps previous ts = .ok steps) :
    ∃ steps', readSteps previous us = .ok steps' ∧
      steps.map (fun s => (Plan.ofStep s).withoutLine) =
        steps'.map (fun s => (Plan.ofStep s).withoutLine) := by
  induction h generalizing previous steps with
  | nil =>
    cases hsteps
    exact ⟨[], rfl, rfl⟩
  | @cons t u ts us hline _ ih =>
    obtain ⟨line, n⟩ := t
    obtain ⟨line', n'⟩ := u
    cases hline with
    | silent left right =>
      rw [readSteps_of_not_isStep left] at hsteps
      rw [readSteps_of_not_isStep right]
      exact ih hsteps
    | @step lead s t same =>
      obtain ⟨kind, ps, rest, hkind, hps, hrest, rfl⟩ := readSteps_cons_eq_ok.1 hsteps
      obtain ⟨rest', hrest', hsame⟩ := ih hrest
      -- The kind comes from the lead and the kind before, the parameters from the respaced text:
      -- only the numbers of the two lines may differ.
      rw [extract_eq_of_normalize same] at hps
      refine ⟨⟨kind, t, ps, n'⟩ :: rest', ?_, ?_⟩
      · exact readSteps_cons_eq_ok.2 ⟨kind, ps, rest', kind_eq_ok_iff.1 hkind, hps, hrest', rfl⟩
      · rw [List.map_cons, List.map_cons, hsame]
        simp [Plan.ofStep, Plan.Step.withoutLine, same]

theorem readScenario_of_alike (h : List.Forall₂ Token.Alike ts us) {s : Scenario String Nat}
    (hs : readScenario ts = .ok s) : ∃ t, readScenario us = .ok t ∧
      (Plan.ofScenario s).withoutLines = (Plan.ofScenario t).withoutLines := by
  obtain ⟨steps, hsteps, hcomplete, rfl⟩ := readScenario_eq_ok.1 hs
  obtain ⟨steps', hsteps', hsame⟩ := readSteps_of_alike h hsteps
  have hkinds : steps.map (·.kind) = steps'.map (·.kind) := by
    simpa [Function.comp_def, Plan.Step.withoutLine, Plan.ofStep] using
      congrArg (List.map (·.kind)) hsame
  have hids := congrArg (List.map fun t => (t.kind, t.statement)) hsame
  rw [List.map_map, List.map_map] at hids
  have htitle := commentText_of_alike (takeWhile_of_alike h)
  rw [missingKind?_eq_none, hkinds, ← missingKind?_eq_none] at hcomplete
  refine ⟨_, readScenario_eq_ok.2 ⟨steps', hsteps', hcomplete, rfl⟩, ?_⟩
  simp only [Plan.ofScenario, Plan.Scenario.withoutLines, List.map_map, htitle,
    Plan.Scenario.mk.injEq, and_true, true_and]
  exact ⟨congrArg Plan.scenarioId hids, hsame⟩

theorem descriptionOf_of_alike {bs cs : List (List Token)}
    (h : List.Forall₂ (List.Forall₂ Token.Alike) bs cs) : descriptionOf bs = descriptionOf cs := by
  cases h with
  | nil => rfl
  | cons hblock _ => rw [descriptionOf, descriptionOf, hasStep_of_alike hblock, commentText_of_alike hblock]

theorem parse_of_sameLayout {source : Option String} {s : Spec} (h : SameLayout a b)
    (hs : parse a source = .ok s) : ∃ t, parse b source = .ok t ∧
      ∃ p q, Plan.ofSpec s = .ok p ∧ Plan.ofSpec t = .ok q ∧ p.withoutLines = q.withoutLines := by
  have hplan := ofSpec_of_legible (legible_of_parse hs)
  obtain ⟨ha, scenarios, hscenarios, hne, rfl⟩ := parse_eq_ok.1 hs
  have halike := h.alike ha
  -- Blocks without a step are skipped on both sides at once, so the scenarios stay paired.
  have hfilter := List.rel_filter (p := hasStep) (q := hasStep)
    (fun _ _ hblock => iff_of_eq (congrArg (· = true) (hasStep_of_alike hblock))) halike
  obtain ⟨scenarios', hscenarios', hsame⟩ :=
    exists_mapM_of_forall₂ (f := readScenario) (g := readScenario)
      (fun _ _ _ hblock => readScenario_of_alike hblock) hfilter hscenarios
  have hne' : scenarios' ≠ [] := by
    rintro rfl
    exact hne (List.forall₂_nil_right_iff.1 hsame)
  have ht : parse b source = .ok _ :=
    parse_eq_ok.2 ⟨HasBodies.of_sameLayout h ha, scenarios', hscenarios', hne', rfl⟩
  refine ⟨_, ht, _, _, hplan, ofSpec_of_legible (legible_of_parse ht), ?_⟩
  have hmaps : scenarios.map (fun s => (Plan.ofScenario s).withoutLines) =
      scenarios'.map (fun s => (Plan.ofScenario s).withoutLines) := by
    rw [← List.forall₂_eq_eq_eq, List.forall₂_map_left_iff, List.forall₂_map_right_iff]
    exact hsame
  simp only [Plan.Document.withoutLines, List.map_map, descriptionOf_of_alike halike,
    Plan.Document.mk.injEq, true_and]
  exact hmaps

/-- Texts that differ in their layout only are read or refused together, and the same plan is made of
them, but for the numbers of the lines. Spacing a statement leaves its literals as they are. -/
theorem layout_is_free (a b : String) (h : SameLayout a b) (source : Option String) :
    ((∃ s, parse a source = .ok s) ↔ ∃ t, parse b source = .ok t) ∧
    (∀ s t, parse a source = .ok s → parse b source = .ok t →
      ∃ p q, Plan.ofSpec s = .ok p ∧ Plan.ofSpec t = .ok q ∧ p.withoutLines = q.withoutLines) ∧
    ∀ statement, extract (Text.normalize statement) = extract statement := by
  refine ⟨⟨?_, ?_⟩, fun s t hs ht => ?_, extract_normalize⟩
  · rintro ⟨s, hs⟩
    obtain ⟨t, ht, -⟩ := parse_of_sameLayout h hs
    exact ⟨t, ht⟩
  · rintro ⟨t, ht⟩
    obtain ⟨s, hs, -⟩ := parse_of_sameLayout h.symm ht
    exact ⟨s, hs⟩
  · obtain ⟨t', ht', hplans⟩ := parse_of_sameLayout h hs
    obtain rfl : t' = t := Except.ok.inj (ht'.symm.trans ht)
    exact hplans

/-- A spec on few lines, and the same with other breaks, more blanks and more blank lines. -/
def plainLayout : String :=
  "; Shop\n\nGIVEN a \"b  c\" cart.\nWHEN 2 items are added.\nTHEN ok.\n\n; again\nWHEN x.\nTHEN y."

def airyLayout : String :=
  "\r\n ;  Shop \r\r\r\tGIVEN   a  \"b  c\"\tcart.\r\nWHEN 2   items are added.  \nTHEN ok.\n \n\n" ++
    ";again\r\nWHEN  x.\n  THEN  y.\n\n"

theorem layout_is_free_airyLayout : SameLayout plainLayout airyLayout ∧
    ∃ s t p q, parse plainLayout none = .ok s ∧ parse airyLayout none = .ok t ∧
      Plan.ofSpec s = .ok p ∧ Plan.ofSpec t = .ok q ∧ p.withoutLines = q.withoutLines := by
  have h : SameLayout plainLayout airyLayout := by decide +kernel
  have hread : (parse plainLayout none).toOption.isSome = true := by decide +kernel
  obtain ⟨s, hs⟩ := Option.isSome_iff_exists.1 hread
  obtain ⟨htogether, hplans, -⟩ := layout_is_free plainLayout airyLayout h none
  obtain ⟨t, ht⟩ := htogether.1 ⟨s, eq_ok_of_toOption hs⟩
  obtain ⟨p, q, hpq⟩ := hplans s t (eq_ok_of_toOption hs) ht
  exact ⟨h, s, t, p, q, eq_ok_of_toOption hs, ht, hpq⟩

end Spec

end Acceptance

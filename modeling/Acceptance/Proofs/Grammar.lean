import Mathlib.Computability.RegularExpressions
import Acceptance.Plan.Build
import Acceptance.Proofs.StepLines
/-!
The grammar of specs. A text is a spec if its step lines have bodies and the leads of each run of
them are in a regular language. What is read is then one scenario for each run, and a plan is made
of it.
-/
namespace Acceptance.Spec

open Text

variable {ls : List Lead} {k : Kind} {l : Lead} {ks : List Kind} {previous : Option Kind}
  {run : List (List Char × Nat)} {steps : List (Step Nat)} {s : Scenario String Nat}
  {b : List Token}

section Language

/-- The leads that go on with steps of a kind. -/
def going : Kind → List Lead
  | .context => [.keyword .context, .again]
  | .action => [.keyword .action, .again]
  | .outcome => [.keyword .outcome, .again, .bare]

def anyOf : List Lead → RegularExpression Lead
  | [] => 0
  | l :: ls => .char l + anyOf ls

/-- A first lead with the word of a kind, and then any that go on with it. -/
def part (k : Kind) : RegularExpression Lead := .char (.keyword k) * (anyOf (going k)).star

/-- The leads of a scenario: contexts or none, then actions, then outcomes. -/
def grammar : RegularExpression Lead := (1 + part .context) * part .action * part .outcome

theorem mem_anyOf {letters w : List Lead} :
    w ∈ (anyOf letters).matches' ↔ ∃ l ∈ letters, w = [l] := by
  induction letters with
  | nil => simp [anyOf]
  | cons l letters ih =>
    rw [anyOf, RegularExpression.matches'_add, Language.mem_add, ih]
    simp only [List.mem_cons, exists_eq_or_imp]
    exact Iff.rfl

theorem mem_star_anyOf {letters : List Lead} :
    ls ∈ (anyOf letters).star.matches' ↔ ∀ l ∈ ls, l ∈ letters := by
  rw [RegularExpression.matches'_star, Language.mem_kstar]
  constructor
  · rintro ⟨words, rfl, hwords⟩ l hl
    obtain ⟨w, hw, hl⟩ := List.mem_flatten.1 hl
    obtain ⟨m, hm, rfl⟩ := mem_anyOf.1 (hwords w hw)
    rwa [List.mem_singleton.1 hl]
  · intro h
    refine ⟨ls.map fun l => [l], by simp [← List.flatMap_def], fun w hw => ?_⟩
    obtain ⟨l, hl, rfl⟩ := List.mem_map.1 hw
    exact mem_anyOf.2 ⟨l, h l hl, rfl⟩

theorem mem_part :
    ls ∈ (part k).matches' ↔ ∃ more, ls = .keyword k :: more ∧ ∀ l ∈ more, l ∈ going k := by
  rw [part, RegularExpression.matches'_mul, Language.mem_mul]
  constructor
  · rintro ⟨w, rfl, more, hmore, rfl⟩
    exact ⟨more, rfl, mem_star_anyOf.1 hmore⟩
  · rintro ⟨more, rfl, hmore⟩
    exact ⟨[.keyword k], rfl, more, mem_star_anyOf.2 hmore, rfl⟩

theorem mem_grammar : ls ∈ grammar.matches' ↔
    ∃ givens acts checks, (givens = [] ∨ givens ∈ (part .context).matches') ∧
      acts ∈ (part .action).matches' ∧ checks ∈ (part .outcome).matches' ∧
        ls = givens ++ acts ++ checks := by
  rw [grammar, RegularExpression.matches'_mul, RegularExpression.matches'_mul,
    RegularExpression.matches'_add, Language.mem_mul]
  constructor
  · rintro ⟨front, hfront, checks, hchecks, rfl⟩
    obtain ⟨givens, hgivens, acts, hacts, rfl⟩ := Language.mem_mul.1 hfront
    exact ⟨givens, acts, checks, hgivens, hacts, hchecks, rfl⟩
  · rintro ⟨givens, acts, checks, hgivens, hacts, hchecks, rfl⟩
    exact ⟨_, Language.mem_mul.2 ⟨givens, hgivens, acts, hacts, rfl⟩, checks, hchecks, rfl⟩

end Language

section Follow

/-- The kinds that steps with the leads have behind a step of kind `previous`. -/
inductive Follows : Option Kind → List Lead → List Kind → Prop
  | nil {previous : Option Kind} : Follows previous [] []
  | cons {previous : Option Kind} {lead : Lead} {ls : List Lead} {k : Kind} {ks : List Kind}
      (head : lead.kind "" previous = .ok k) (tail : Follows (some k) ls ks) :
      Follows previous (lead :: ls) (k :: ks)

theorem kind_of_mem_going (h : l ∈ going k) : l.kind "" (some k) = .ok k := by
  cases k <;> simp only [going, List.mem_cons, List.not_mem_nil, or_false] at h <;>
    rcases h with rfl | rfl | rfl <;> rfl

theorem kind_eq_ok {j : Kind} (h : l.kind "" (some k) = .ok j) :
    j = k ∧ l ∈ going k ∨ j ≠ k ∧ j.mayFollow k = true ∧ l = .keyword j := by
  have hmay := mayFollow_of_lead h k rfl
  cases l with
  | keyword i =>
    obtain rfl : i = j := by
      simp only [Lead.kind] at h
      split at h
      · simpa using h
      · cases h
    by_cases hij : i = k
    · subst hij
      exact .inl ⟨rfl, by cases i <;> simp [going]⟩
    · exact .inr ⟨hij, hmay, rfl⟩
  | again =>
    cases h
    exact .inl ⟨rfl, by cases k <;> simp [going]⟩
  | bare =>
    cases k <;> cases h
    exact .inl ⟨rfl, by simp [going]⟩

theorem Follows.going_append {before : List Lead} (hbefore : ∀ l ∈ before, l ∈ going k)
    (h : Follows (some k) ls ks) :
    Follows (some k) (before ++ ls) (List.replicate before.length k ++ ks) := by
  induction before with
  | nil => exact h
  | cons l before ih =>
    obtain ⟨hl, hbefore⟩ := List.forall_mem_cons.1 hbefore
    exact .cons (kind_of_mem_going hl) (ih hbefore)

/-- Leads behind a step go on with its kind until a word names another kind. -/
theorem Follows.split (h : Follows (some k) ls ks) :
    (∀ l ∈ ls, l ∈ going k) ∧ (∀ i ∈ ks, i = k) ∨
      ∃ before j after ks', ls = before ++ .keyword j :: after ∧ (∀ l ∈ before, l ∈ going k) ∧
        j ≠ k ∧ j.mayFollow k = true ∧ Follows (some j) after ks' ∧
          ∀ i ∈ ks, i = k ∨ i = j ∨ i ∈ ks' := by
  induction ls generalizing ks with
  | nil =>
    cases h
    exact .inl (by simp)
  | cons l ls ih =>
    cases h with
    | @cons _ _ _ j ks head tail =>
      rcases kind_eq_ok head with ⟨rfl, hl⟩ | ⟨hne, hmay, rfl⟩
      · rcases ih tail with ⟨hls, hks⟩ | ⟨before, i, after, ks', rfl, hbefore, hne, hmay, hafter, hks⟩
        · exact .inl ⟨List.forall_mem_cons.2 ⟨hl, hls⟩, List.forall_mem_cons.2 ⟨rfl, hks⟩⟩
        · exact .inr ⟨l :: before, i, after, ks', rfl, List.forall_mem_cons.2 ⟨hl, hbefore⟩, hne, hmay,
            hafter, List.forall_mem_cons.2 ⟨.inl rfl, hks⟩⟩
      · refine .inr ⟨[], j, ls, ks, rfl, by simp, hne, hmay, tail, ?_⟩
        exact List.forall_mem_cons.2 ⟨.inr (.inl rfl), fun i hi => .inr (.inr hi)⟩

theorem Follows.of_outcome (h : Follows (some .outcome) ls ks) :
    (∀ l ∈ ls, l ∈ going .outcome) ∧ ∀ i ∈ ks, i = .outcome := by
  rcases h.split with hgoing | ⟨_, j, _, _, _, _, hne, hmay, _⟩
  · exact hgoing
  · cases j <;> simp_all [Kind.mayFollow, Kind.rank]

/-- Behind an action, leads with an outcome among them end the scenario. -/
theorem Follows.of_action (h : Follows (some .action) ls ks) (houtcome : .outcome ∈ ks) :
    ∃ acts checks, .keyword .action :: ls = acts ++ checks ∧
      acts ∈ (part .action).matches' ∧ checks ∈ (part .outcome).matches' := by
  rcases h.split with ⟨_, hks⟩ | ⟨before, j, after, ks', rfl, hbefore, hne, hmay, hafter, _⟩
  · exact absurd (hks _ houtcome) (by decide)
  · obtain rfl : j = .outcome := by
      cases j <;> simp_all [Kind.mayFollow, Kind.rank]
    exact ⟨.keyword .action :: before, .keyword .outcome :: after, rfl,
      mem_part.2 ⟨before, rfl, hbefore⟩, mem_part.2 ⟨after, rfl, hafter.of_outcome.1⟩⟩

theorem Follows.of_context (h : Follows (some .context) ls ks) (haction : .action ∈ ks)
    (houtcome : .outcome ∈ ks) : .keyword .context :: ls ∈ grammar.matches' := by
  rcases h.split with ⟨_, hks⟩ | ⟨before, j, after, ks', rfl, hbefore, hne, hmay, hafter, hks⟩
  · exact absurd (hks _ haction) (by decide)
  · have hgivens : .keyword .context :: before ∈ (part .context).matches' :=
      mem_part.2 ⟨before, rfl, hbefore⟩
    cases j with
    | context => exact absurd rfl hne
    | action =>
      have hlater : .outcome ∈ ks' := by simpa using hks _ houtcome
      obtain ⟨acts, checks, hsplit, hacts, hchecks⟩ := hafter.of_action hlater
      refine mem_grammar.2 ⟨_, acts, checks, .inr hgivens, hacts, hchecks, ?_⟩
      rw [List.append_assoc, ← hsplit]
      rfl
    | outcome =>
      -- An outcome has come too early: no action follows it.
      have hlater : .action ∈ ks' := by simpa using hks _ haction
      exact absurd (hafter.of_outcome.2 _ hlater) (by decide)

/-- The leads that give kinds in order, with an action and an outcome, are those of the grammar. -/
theorem mem_grammar_iff_follows : ls ∈ grammar.matches' ↔
    ∃ ks, Follows none ls ks ∧ .action ∈ ks ∧ .outcome ∈ ks := by
  constructor
  · intro h
    obtain ⟨givens, _, _, hgivens, hacts, hchecks, rfl⟩ := mem_grammar.1 h
    obtain ⟨acts, rfl, hactsGo⟩ := mem_part.1 hacts
    obtain ⟨checks, rfl, hchecksGo⟩ := mem_part.1 hchecks
    have hend := Follows.going_append hchecksGo .nil
    rw [List.append_nil] at hend
    have hcheck : Follows (some .action) (.keyword .outcome :: checks) _ := .cons rfl hend
    have hact := Follows.going_append hactsGo hcheck
    rcases hgivens with rfl | hgivens
    · exact ⟨_, .cons rfl hact, by simp, by simp⟩
    · obtain ⟨givens, rfl, hgivensGo⟩ := mem_part.1 hgivens
      have hactFirst : Follows (some .context) (.keyword .action :: (acts ++ _)) _ := .cons rfl hact
      have hgiven := Follows.going_append hgivensGo hactFirst
      rw [List.append_assoc]
      exact ⟨_, .cons rfl hgiven, by simp, by simp⟩
  · rintro ⟨ks, h, haction, houtcome⟩
    cases h with
    | nil => cases haction
    | @cons _ l ls k ks head tail =>
      obtain rfl : l = .keyword k := by
        cases l <;> cases head
        rfl
      cases k with
      | context =>
        exact tail.of_context (by simpa using haction) (by simpa using houtcome)
      | action =>
        obtain ⟨acts, checks, hsplit, hacts, hchecks⟩ := tail.of_action (by simpa using houtcome)
        exact mem_grammar.2 ⟨[], acts, checks, .inl rfl, hacts, hchecks, hsplit⟩
      | outcome =>
        have hlater : .action ∈ ks := by simpa using haction
        exact absurd (tail.of_outcome.2 _ hlater) (by decide)

end Follow

section Reading

/-- An integer has no more digits than one may have. -/
def Item.fits : Item → Bool
  | .number n => n.fraction.isSome || n.whole.length ≤ Numeral.maxDigits
  | _ => true

def IntegersFit (text : String) : Prop :=
  ∀ l ∈ trimmedLines text, isStepLine l.1 = true →
    ∀ i ∈ items .free (statementOf l.1), i.fits = true

instance : DecidablePred IntegersFit := fun text =>
  inferInstanceAs (Decidable (∀ l ∈ trimmedLines text, isStepLine l.1 = true →
    ∀ i ∈ items .free (statementOf l.1), i.fits = true))

theorem exists_nameItems {is : List Item} (h : ∀ i ∈ is, i.fits = true)
    (before : List Item) (given : List String) : ∃ ps, nameItems before given is = .ok ps := by
  induction is generalizing before given with
  | nil => exact ⟨[], rfl⟩
  | cons i is ih =>
    obtain ⟨hi, his⟩ := List.forall_mem_cons.1 h
    have hlater := ih his
    have hliteral : i.literal? = none ∨ ∃ literal, i.literal? = some (.ok literal) := by
      cases i with
      | word => exact .inl rfl
      | quoted => exact .inr ⟨_, rfl⟩
      | truth => exact .inr ⟨_, rfl⟩
      | number n =>
        right
        simp only [Item.literal?, Numeral.literal]
        cases hn : n.fraction with
        | some => exact ⟨_, rfl⟩
        | none =>
          have hle : n.whole.length ≤ Numeral.maxDigits := by simpa [Item.fits, hn] using hi
          rw [if_neg (by omega)]
          exact ⟨_, rfl⟩
    rw [nameItems]
    rcases hliteral with hnone | ⟨literal, hsome⟩
    · rw [hnone]
      exact hlater _ _
    · obtain ⟨ps, hps⟩ := hlater (i :: before) (nameAt before is :: given)
      rw [hsome]
      exact ⟨_, bind_eq_ok.2 ⟨literal, rfl, bind_eq_ok.2 ⟨ps, hps, rfl⟩⟩⟩

theorem kind_eq_ok_iff {s t : String} : l.kind s previous = .ok k ↔ l.kind t previous = .ok k := by
  cases l with
  | keyword j => cases previous <;> rfl
  | again => cases previous <;> rfl
  | bare => rcases previous with _ | _ | _ | _ <;> simp [Lead.kind]

theorem readSteps_filter (previous : Option Kind) (ts : List Token) :
    readSteps previous (ts.filter (·.line.isStep)) = readSteps previous ts := by
  induction ts generalizing previous with
  | nil => rfl
  | cons t ts ih =>
    obtain ⟨line, n⟩ := t
    cases line with
    | step lead statement =>
      rw [List.filter_cons_of_pos rfl]
      simp only [readSteps, ih]
    | _ => exact ih previous

theorem follows_of_readSteps (hrun : ∀ l ∈ run, isStepLine l.1 = true)
    (h : readSteps previous (run.map tokenOf) = .ok steps) :
    Follows previous (run.map (leadOf ·.1)) (steps.map (·.kind)) ∧
      steps.map (·.line) = run.map (·.2) ∧
      steps.map (·.text.toList) = run.map (statementOf ·.1) := by
  induction run generalizing previous steps with
  | nil =>
    cases h
    exact ⟨.nil, rfl, rfl⟩
  | cons l run ih =>
    obtain ⟨hl, hrun⟩ := List.forall_mem_cons.1 hrun
    rw [List.map_cons, tokenOf, lineOf_of_isStepLine hl] at h
    obtain ⟨k, -, rest, hk, -, hrest, rfl⟩ := readSteps_cons_eq_ok.1 h
    obtain ⟨hfollows, hnumbers, htexts⟩ := ih hrun hrest
    refine ⟨.cons (kind_eq_ok_iff.1 hk) hfollows, ?_, ?_⟩
    · rw [List.map_cons, hnumbers, List.map_cons]
    · rw [List.map_cons, htexts, List.map_cons, String.toList_ofList]

theorem exists_readSteps_of_follows (hrun : ∀ l ∈ run, isStepLine l.1 = true)
    (hfit : ∀ l ∈ run, ∃ ps, extract (String.ofList (statementOf l.1)) = .ok ps)
    (h : Follows previous (run.map (leadOf ·.1)) ks) :
    ∃ steps, readSteps previous (run.map tokenOf) = .ok steps ∧ steps.map (·.kind) = ks := by
  induction run generalizing previous ks with
  | nil =>
    cases h
    exact ⟨[], rfl, rfl⟩
  | cons l run ih =>
    obtain ⟨hl, hrun⟩ := List.forall_mem_cons.1 hrun
    obtain ⟨⟨ps, hps⟩, hfit⟩ := List.forall_mem_cons.1 hfit
    cases h with
    | @cons _ _ _ k ks head tail =>
      obtain ⟨rest, hrest, hkinds⟩ := ih hrun hfit tail
      refine ⟨⟨k, String.ofList (statementOf l.1), ps, l.2⟩ :: rest, ?_, by simp [hkinds]⟩
      rw [List.map_cons, tokenOf, lineOf_of_isStepLine hl]
      exact readSteps_cons_eq_ok.2 ⟨k, ps, rest, kind_eq_ok_iff.1 head, hps, hrest, rfl⟩

theorem missingKind?_eq_none : missingKind? steps = none ↔
    .action ∈ steps.map (·.kind) ∧ .outcome ∈ steps.map (·.kind) := by
  simp [missingKind?]

theorem of_readScenario {block : List Token} (h : readScenario block = .ok s) :
    readSteps none (block.filter (·.line.isStep)) = .ok s.steps ∧ missingKind? s.steps = none := by
  obtain ⟨steps, hsteps, hcomplete, rfl⟩ := readScenario_eq_ok.1 h
  exact ⟨(readSteps_filter none block).trans hsteps, hcomplete⟩

theorem exists_readScenario_of_readSteps {block : List Token}
    (h : readSteps none (block.filter (·.line.isStep)) = .ok steps)
    (hcomplete : missingKind? steps = none) : ∃ s, readScenario block = .ok s := by
  rw [readSteps_filter] at h
  exact ⟨_, readScenario_eq_ok.2 ⟨steps, h, hcomplete, rfl⟩⟩

end Reading

/-- The kinds of steps with the leads: that of its word, or else that of the step before. -/
def kindsAfter (previous : Option Kind) : List Lead → List (Option Kind)
  | [] => []
  | .keyword k :: ls => some k :: kindsAfter (some k) ls
  | _ :: ls => previous :: kindsAfter previous ls

theorem Follows.kindsAfter_eq (h : Follows previous ls ks) :
    ks.map some = kindsAfter previous ls := by
  induction h with
  | nil => rfl
  | @cons previous l ls k ks head _ ih =>
    rw [List.map_cons, ih]
    cases l with
    | keyword j =>
      obtain rfl : j = k := by
        cases previous with
        | none => simpa [Lead.kind] using head
        | some i =>
          simp only [Lead.kind] at head
          split at head
          · simpa using head
          · cases head
      rfl
    | again =>
      cases previous <;> cases head
      rfl
    | bare =>
      rcases previous with _ | _ | _ | _ <;> cases head
      rfl

/-- The scenario has one step for each line of the run. -/
structure Reads (run : List (List Char × Nat)) (s : Scenario String Nat) : Prop where
  lines : s.steps.map (·.line) = run.map (·.2)
  texts : s.steps.map (·.text.toList) = run.map (statementOf ·.1)
  kinds : s.steps.map (fun t => some t.kind) = kindsAfter none (run.map (leadOf ·.1))

theorem mem_stepRuns {text : String} (h : run ∈ stepRuns text) :
    ∀ l ∈ run, isStepLine l.1 = true ∧ l ∈ trimmedLines text := by
  intro l hl
  have hflat := List.mem_flatten_of_mem h hl
  rw [flatten_stepRuns] at hflat
  obtain ⟨hmem, hstep⟩ := List.mem_filter.1 hflat
  exact ⟨hstep, hmem⟩

/-- The numbers of step lines, run after run, go up. -/
theorem stepRuns_increasing (text : String) :
    ((stepRuns text).flatten.map (·.2)).Pairwise (· < ·) := by
  have hnumbers : ((trimmedLines text).map (·.2)).Pairwise (· < ·) := by
    rw [trimmedLines, List.zipIdx_map_snd]
    exact List.pairwise_lt_range' 1
  rw [flatten_stepRuns]
  exact hnumbers.sublist (List.filter_sublist.map _)

/-- What is read from a text, block by block. -/
theorem parse_eq_ok {text : String} {source : Option String} {s : Spec} :
    parse text source = .ok s ↔
      (∀ l ∈ trimmedLines text, isStepLine l.1 = true → IsBody (bodyOf l.1)) ∧
      ∃ scenarios, ((blocks ((trimmedLines text).map tokenOf)).filter hasStep).mapM readScenario =
          .ok scenarios ∧ scenarios ≠ [] ∧
        s = ⟨sourceName source, descriptionOf (blocks ((trimmedLines text).map tokenOf)),
          scenarios⟩ := by
  constructor
  · intro h
    obtain ⟨ts, hts, h⟩ := bind_eq_ok.1 (eq_ok_of_mapError h)
    obtain ⟨hbodies, rfl⟩ := tokens_eq_ok.1 hts
    exact ⟨hbodies, readTokens_eq_ok.1 h⟩
  · rintro ⟨hbodies, hscenarios⟩
    have hread : (tokens text >>= readTokens (sourceName source)) = .ok _ :=
      bind_eq_ok.2 ⟨_, tokens_eq_ok.2 ⟨hbodies, rfl⟩, readTokens_eq_ok.2 hscenarios⟩
    rw [parse, hread]
    rfl

section Blocks

variable {text : String}

theorem exists_block_of_mem_stepRuns (hrun : run ∈ stepRuns text) :
    ∃ b ∈ (blocks ((trimmedLines text).map tokenOf)).filter hasStep,
      b.filter (·.line.isStep) = run.map tokenOf := by
  have hmem := List.mem_map_of_mem (f := List.map tokenOf) hrun
  rw [← blocks_map_filter] at hmem
  exact List.mem_map.1 hmem

theorem exists_run_of_mem_blocks
    (hb : b ∈ (blocks ((trimmedLines text).map tokenOf)).filter hasStep) :
    ∃ run ∈ stepRuns text, b.filter (·.line.isStep) = run.map tokenOf := by
  have hmem := List.mem_map_of_mem (f := List.filter fun t : Token => t.line.isStep) hb
  rw [blocks_map_filter] at hmem
  obtain ⟨run, hrun, heq⟩ := List.mem_map.1 hmem
  exact ⟨run, hrun, heq.symm⟩

theorem mem_grammar_of_readScenario (hrun : run ∈ stepRuns text)
    (hb : b.filter (·.line.isStep) = run.map tokenOf) (h : readScenario b = .ok s) :
    run.map (leadOf ·.1) ∈ grammar.matches' := by
  obtain ⟨hsteps, hcomplete⟩ := of_readScenario h
  rw [hb] at hsteps
  have hfollows := (follows_of_readSteps (fun l hl => (mem_stepRuns hrun l hl).1) hsteps).1
  exact mem_grammar_iff_follows.2 ⟨_, hfollows, missingKind?_eq_none.1 hcomplete⟩

theorem exists_readScenario_of_mem_grammar (hfit : IntegersFit text)
    (hrun : run ∈ stepRuns text)
    (hb : b.filter (·.line.isStep) = run.map tokenOf)
    (h : run.map (leadOf ·.1) ∈ grammar.matches') : ∃ s, readScenario b = .ok s := by
  obtain ⟨ks, hfollows, hkinds⟩ := mem_grammar_iff_follows.1 h
  have hlines := mem_stepRuns hrun
  have hextract : ∀ l ∈ run, ∃ ps, extract (String.ofList (statementOf l.1)) = .ok ps := by
    intro l hl
    rw [extract, String.toList_ofList]
    exact exists_nameItems (hfit l (hlines l hl).2 (hlines l hl).1) [] []
  obtain ⟨steps, hsteps, rfl⟩ :=
    exists_readSteps_of_follows (fun l hl => (hlines l hl).1) hextract hfollows
  rw [← hb] at hsteps
  exact exists_readScenario_of_readSteps hsteps (missingKind?_eq_none.2 hkinds)

theorem reads_of_readSteps (hrun : run ∈ stepRuns text)
    (h : readSteps none (run.map tokenOf) = .ok s.steps) : Reads run s := by
  obtain ⟨hfollows, hnumbers, htexts⟩ :=
    follows_of_readSteps (fun l hl => (mem_stepRuns hrun l hl).1) h
  have hkinds := hfollows.kindsAfter_eq
  rw [List.map_map] at hkinds
  exact ⟨hnumbers, htexts, hkinds⟩

theorem reads_of_parse {source : Option String} {s : Spec} (h : parse text source = .ok s) :
    List.Forall₂ Reads (stepRuns text) s.scenarios := by
  obtain ⟨-, scenarios, hscenarios, -, rfl⟩ := parse_eq_ok.1 h
  -- Blocks with steps are read through their steps alone, and these are the runs.
  have hsteps : List.Forall₂ (fun ts s => readSteps none ts = .ok s.steps)
      ((stepRuns text).map (List.map tokenOf)) scenarios := by
    rw [← blocks_map_filter, List.forall₂_map_left_iff]
    exact (mapM_eq_ok.1 hscenarios).imp fun _ _ hread => (of_readScenario hread).1
  rw [List.forall₂_map_left_iff] at hsteps
  have hruns := (List.forall₂_and_left (p := (· ∈ stepRuns text)) _ _).2 ⟨fun _ hrun => hrun, hsteps⟩
  exact hruns.imp fun _ _ hread => reads_of_readSteps hread.1 hread.2

end Blocks

/-- The numbers of the steps of scenarios that are read from runs. -/
theorem lines_of_reads {runs : List (List (List Char × Nat))}
    {scenarios : List (Scenario String Nat)} (h : List.Forall₂ Reads runs scenarios) :
    (scenarios.flatMap (·.steps)).map (·.line) = runs.flatten.map (·.2) := by
  induction h with
  | nil => rfl
  | cons hread _ ih =>
    rw [List.flatMap_cons, List.map_append, ih, hread.lines, List.flatten_cons, List.map_append]

theorem outOfOrder?_of_inOrder {ν : Type} [ToValue ν] {steps : List (Step ν)}
    (h : Kind.InOrder (steps.map (·.kind))) : Plan.outOfOrder? steps = none := by
  induction steps with
  | nil => rfl
  | cons s steps ih =>
    cases steps with
    | nil => rfl
    | cons t steps =>
      have hmay : t.kind.mayFollow s.kind = true := List.rel_of_pairwise_cons h List.mem_cons_self
      rw [Plan.outOfOrder?, if_pos hmay]
      exact ih (List.Pairwise.of_cons h)

/-- A scenario that a text can say has nothing in it that a plan objects to. -/
theorem Scenario.Legible.flaw?_eq_none (h : s.Legible) : Plan.flaw? s = none := by
  obtain ⟨haction, houtcome⟩ := missingKind?_eq_none.1 h.complete
  have hcount {k : Kind} (hk : k ∈ s.steps.map (·.kind)) : s.count k ≠ 0 := by
    obtain ⟨step, hstep, rfl⟩ := List.mem_map.1 hk
    have hpos : 0 < s.steps.countP (·.kind = step.kind) :=
      List.countP_pos_iff.2 ⟨step, hstep, by simp⟩
    unfold Scenario.count
    omega
  have hne : s.steps.isEmpty = false := by
    cases hsteps : s.steps with
    | nil => simp [hsteps] at haction
    | cons => rfl
  rw [Plan.flaw?, hne, outOfOrder?_of_inOrder h.inOrder]
  simp [hcount haction, hcount houtcome]

theorem ofSpec_of_legible {s : Spec} (h : s.Legible) : Plan.ofSpec s =
    .ok ⟨s.path, normalize s.description, s.scenarios.map Plan.ofScenario⟩ := by
  have hflaw : s.scenarios.findSome? Plan.flaw? = none :=
    List.findSome?_eq_none_iff.2 fun t ht => (h.scenarios t ht).flaw?_eq_none
  rw [Plan.ofSpec, if_neg (by simpa using h.scenarios_ne_nil), hflaw]

/-- A text is read as a spec just if it is in the grammar. Each run with step lines is then a
scenario, each of its step lines a step, and a plan with the same steps is made of them. -/
theorem parse_iff_grammar (text : String) (source : Option String) (hfit : IntegersFit text) :
    ((∃ s, parse text source = .ok s) ↔
      (∀ l ∈ trimmedLines text, isStepLine l.1 = true → IsBody (bodyOf l.1)) ∧
      (∀ run ∈ stepRuns text, run.map (leadOf ·.1) ∈ grammar.matches') ∧ stepRuns text ≠ []) ∧
    ∀ s, parse text source = .ok s →
      List.Forall₂ Reads (stepRuns text) s.scenarios ∧
      ((s.scenarios.flatMap (·.steps)).map (·.line)).Pairwise (· < ·) ∧
      ∃ p, Plan.ofSpec s = .ok p ∧
        p.scenarios.map (fun t => (t.line, t.steps.map fun u => (u.kind, u.line))) =
          s.scenarios.map fun t => (t.line, t.steps.map fun u => (u.kind, u.line)) := by
  refine ⟨⟨?_, ?_⟩, fun s hs => ?_⟩
  · rintro ⟨s, hs⟩
    obtain ⟨hbodies, scenarios, hscenarios, hne, rfl⟩ := parse_eq_ok.1 hs
    refine ⟨hbodies, fun run hrun => ?_, fun hnil => hne ?_⟩
    · obtain ⟨b, hb, hsteps⟩ := exists_block_of_mem_stepRuns hrun
      obtain ⟨t, ht⟩ := mapM_isOk.1 ⟨_, hscenarios⟩ b hb
      exact mem_grammar_of_readScenario hrun hsteps ht
    · have hreads := reads_of_parse hs
      rw [hnil] at hreads
      exact List.forall₂_nil_left_iff.1 hreads
  · rintro ⟨hbodies, hgrammar, hne⟩
    obtain ⟨scenarios, hscenarios⟩ := mapM_isOk.2 fun b hb => by
      obtain ⟨run, hrun, hsteps⟩ := exists_run_of_mem_blocks hb
      exact exists_readScenario_of_mem_grammar hfit hrun hsteps (hgrammar run hrun)
    refine ⟨_, parse_eq_ok.2 ⟨hbodies, scenarios, hscenarios, ?_, rfl⟩⟩
    rintro rfl
    obtain ⟨run, hrun⟩ := List.exists_mem_of_ne_nil _ hne
    obtain ⟨b, hb, -⟩ := exists_block_of_mem_stepRuns hrun
    rw [List.forall₂_nil_right_iff.1 (mapM_eq_ok.1 hscenarios)] at hb
    cases hb
  · have hreads := reads_of_parse hs
    refine ⟨hreads, ?_, _, ofSpec_of_legible (legible_of_parse hs), ?_⟩
    · rw [lines_of_reads hreads]
      exact stepRuns_increasing text
    · simp [Plan.ofScenario, Plan.ofStep, Function.comp_def]

/-- A run of comments only, a run with a comment in it, and one without a context. -/
def cartText : String :=
  "; x\n\n  GIVEN 12 a.\nAND b.\n; y\nWHEN \"a. b\" .\nTHEN c.\nd.\n\nWHEN a.\nTHEN b."

theorem parse_iff_grammar_cartText : IntegersFit cartText ∧ ∃ s, parse cartText none = .ok s ∧
    List.Forall₂ Reads (stepRuns cartText) s.scenarios ∧
    (stepRuns cartText).map (·.map (·.2)) = [[3, 4, 6, 7, 8], [10, 11]] := by
  have hfit : IntegersFit cartText := by decide +kernel
  obtain ⟨hiff, hread⟩ := parse_iff_grammar cartText none hfit
  obtain ⟨s, hs⟩ := hiff.2 ⟨by decide +kernel, by decide +kernel, by decide +kernel⟩
  exact ⟨hfit, s, hs, (hread s hs).1, by decide +kernel⟩

end Acceptance.Spec

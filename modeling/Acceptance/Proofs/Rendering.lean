import Acceptance.Proofs.Legible
import Acceptance.Spec.Render
/-!
Reading undoes writing. The written form of a spec that was read has just the lines that the spec
asks for, in blocks that a blank line ends, and reading these gives the spec back.
-/
namespace Acceptance.Spec

open Text

variable {ν : Type} {text : String} {cs : List Char} {s : Spec} {ts : List Token}

/-! The lines of a written spec. -/

def captionLines (text : String) : List Line :=
  if text = "" then [] else [.bar headerBar, .comment text, .bar headerBar]

def Step.asLine (s : Step ν) : Line := .step (.keyword s.kind) s.text

def Scenario.asLines (s : Scenario String ν) : List Line :=
  captionLines s.title ++ s.steps.map Step.asLine

def Document.asBlocks (s : Document String ν) : List (List Line) :=
  (if s.description = "" then [] else [captionLines s.description]) ++
    s.scenarios.map Scenario.asLines

/-- The text is one line and is read as the given one. -/
structure Writes (text : String) (line : Line) : Prop where
  oneLine : OneLine text.toList
  read : readLine text.toList = .ok line

theorem writes_empty : Writes "" .blank := ⟨by simp [OneLine], rfl⟩

theorem writes_headerBar : Writes headerBar (.bar headerBar) := by
  exact ⟨oneLine_of_all (by decide), by rfl⟩

theorem writes_comment (h : IsCaption text) (hne : text ≠ "") :
    Writes s!"; {text}" (.comment text) := by
  have hnil : text.toList ≠ [] := by simpa using hne
  have htext : s!"; {text}".toList = [';', ' '] ++ text.toList := String.toList_append
  have htrimmed : Trimmed ([';', ' '] ++ text.toList) :=
    trimmed_append rfl h.trimmed.stop (by simp) hnil
  have hbar : occurs "===".toList (' ' :: text.toList) = false := by
    rw [← Bool.not_eq_true, occurs_iff]
    intro hocc
    rcases infix_append_cons (by decide) (show "===".toList <:+: [] ++ ' ' :: text.toList from hocc)
      with hocc | hocc
    · simp at hocc
    · exact h.noBar hocc
  have hspace : trim (' ' :: text.toList) = text.toList := h.trimmed.trim
  constructor
  · rw [htext]
    exact oneLine_append.2 ⟨by simp [OneLine, isBreak], h.oneLine⟩
  · rw [htext, readLine, htrimmed.trim]
    simp only [List.cons_append, List.nil_append]
    rw [if_neg (Bool.eq_false_iff.1 hbar), hspace, String.ofList_toList]

theorem readStatement_append (hne : cs ≠ []) (htrimmed : Trimmed cs)
    (hquotes : cs.count '"' % 2 = 0) : readStatement (cs ++ ['.']) = .ok cs := by
  have hcount : (cs ++ ['.']).count '"' = cs.count '"' := by simp
  simp [readStatement, hcount, hquotes, htrimmed.stop, hne]

theorem splitLead_keyword (k : Kind) (h : Trimmed cs) :
    splitLead (k.keyword.toList ++ ' ' :: cs) = (.keyword k, cs) := by
  cases k <;> simp [splitLead, leads, Kind.keyword, List.find?, List.isPrefixOf, h.trim]

theorem readLine_of_trimmed (h : Trimmed cs) (hne : cs ≠ []) (hcomment : ∀ rest, cs ≠ ';' :: rest) :
    readLine cs = (readStatement (splitLead cs).2).map
      fun statement => .step (splitLead cs).1 (String.ofList statement) := by
  rw [readLine, h.trim]
  split
  · exact absurd rfl hne
  · next rest => exact absurd rfl (hcomment rest)
  · rfl

theorem Step.toList_render (s : Step ν) :
    s.render.toList = s.kind.keyword.toList ++ ' ' :: (s.text.toList ++ ['.']) := by
  simp only [Step.render, String.toList_append, List.append_assoc]
  rfl

theorem Step.writes_of_isStatement {s : Step ν} (h : IsStatement s.text) :
    Writes s.render s.asLine := by
  obtain ⟨hne, htrimmed, hline, hquotes⟩ := h
  have hbody : Trimmed (s.text.toList ++ ['.']) :=
    trimmed_append htrimmed.start rfl hne (by simp)
  have hlead : trimEnd (' ' :: (s.text.toList ++ ['.'])) = ' ' :: (s.text.toList ++ ['.']) :=
    show trimEnd ([' '] ++ _) = [' '] ++ _ from trimEnd_append hbody.stop (by simp)
  have hwhole : Trimmed (s.kind.keyword.toList ++ ' ' :: (s.text.toList ++ ['.'])) := by
    refine trimmed_append ?_ hlead ?_ (by simp) <;> cases s.kind <;> decide
  constructor
  · rw [Step.toList_render, oneLine_append, oneLine_cons, oneLine_append]
    refine ⟨?_, rfl, hline, by simp [OneLine, isBreak]⟩
    cases s.kind <;> exact oneLine_of_all (by decide)
  · rw [Step.toList_render, readLine_of_trimmed hwhole (by simp), splitLead_keyword s.kind hbody,
      readStatement_append hne htrimmed hquotes]
    · simp [Except.map, Step.asLine]
    · cases s.kind <;> simp [Kind.keyword]

theorem Step.writes_render {s : Step ν} (h : s.Legible) : Writes s.render s.asLine :=
  Step.writes_of_isStatement h.statement

theorem writes_captionLines (h : IsCaption text) (hne : text ≠ "") :
    List.Forall₂ Writes (banner text) (captionLines text) := by
  rw [captionLines, if_neg hne]
  exact .cons writes_headerBar (.cons (writes_comment h hne) (.cons writes_headerBar .nil))

theorem Scenario.writes_render {s : Scenario String Nat} (h : s.Legible) :
    List.Forall₂ Writes s.render (s.asLines ++ [.blank]) := by
  have hsteps : List.Forall₂ Writes (s.steps.map Step.render) (s.steps.map Step.asLine) := by
    rw [List.forall₂_map_left_iff, List.forall₂_map_right_iff, List.forall₂_same]
    exact fun step hstep => Step.writes_render (h.steps step hstep)
  have hend : List.Forall₂ Writes [""] [Line.blank] := .cons writes_empty .nil
  unfold Scenario.render Scenario.asLines
  split
  · next hempty =>
    rw [hempty]
    exact List.rel_append hsteps hend
  · next hne => exact List.rel_append (List.rel_append (writes_captionLines h.title hne) hsteps) hend

/-- Each block of a written spec ends in a blank line. -/
theorem writes_renderLines (h : s.Legible) :
    List.Forall₂ Writes s.renderLines (s.asBlocks.flatMap (· ++ [.blank])) := by
  have hscenarios : List.Forall₂ Writes (s.scenarios.flatMap Scenario.render)
      ((s.scenarios.map Scenario.asLines).flatMap (· ++ [.blank])) := by
    rw [List.flatMap_map, List.flatMap_def, List.flatMap_def]
    apply List.rel_flatten
    rw [List.forall₂_map_left_iff, List.forall₂_map_right_iff, List.forall₂_same]
    exact fun scenario hscenario => Scenario.writes_render (h.scenarios scenario hscenario)
  unfold Document.renderLines Document.asBlocks
  split
  · exact hscenarios
  · next hne =>
    rw [List.flatMap_append, List.flatMap_singleton]
    exact List.rel_append (List.rel_append (writes_captionLines h.description hne)
      (.cons writes_empty .nil)) hscenarios

/-! The written text has these lines. -/

theorem Scenario.Legible.steps_ne_nil {s : Scenario String Nat} (h : s.Legible) : s.steps ≠ [] := by
  intro hnil
  have hcomplete := h.complete
  rw [hnil] at hcomplete
  cases hcomplete

theorem exists_renderLines_eq (h : s.Legible) :
    ∃ ls, ∃ step : Step Nat, s.renderLines = ls ++ [step.render] ++ [""] := by
  obtain ⟨scenarios, scenario, hs⟩ : ∃ init last, s.scenarios = init ++ [last] :=
    ⟨_, _, (List.dropLast_append_getLast h.scenarios_ne_nil).symm⟩
  have hscenario : scenario.Legible := h.scenarios _ (hs ▸ List.mem_concat_self)
  obtain ⟨steps, step, hsteps⟩ : ∃ init last, scenario.steps = init ++ [last] :=
    ⟨_, _, (List.dropLast_append_getLast hscenario.steps_ne_nil).symm⟩
  apply Exists.intro
  refine ⟨step, ?_⟩
  rw [Document.renderLines, hs, List.flatMap_append, List.flatMap_singleton, Scenario.render,
    hsteps, List.map_append, List.map_singleton]
  simp only [← List.append_assoc]
  rfl

theorem intercalate_newline (ls : List (List Char)) :
    ['\n'].intercalate (ls ++ [[]]) = ls.flatMap (· ++ ['\n']) := by
  induction ls with
  | nil => rfl
  | cons l ls ih =>
    rw [List.cons_append, List.intercalate_cons_of_ne_nil (by simp), ih, List.flatMap_cons]

/-- Where the last line but one is a step, only the last break is cut off and put back. -/
theorem toList_joinLines (ls : List String) (step : Step ν) :
    (joinLines (ls ++ [step.render] ++ [""])).toList =
      ((ls ++ [step.render]).map String.toList).flatMap (· ++ ['\n']) := by
  have hlines : (String.intercalate "\n" (ls ++ [step.render] ++ [""])).toList =
      ((ls ++ [step.render]).map String.toList).flatMap (· ++ ['\n']) := by
    rw [String.toList_intercalate, List.map_append]
    exact intercalate_newline _
  obtain ⟨cs, hcs⟩ : ∃ cs, ((ls ++ [step.render]).map String.toList).flatMap (· ++ ['\n']) =
      cs ++ ['.'] ++ ['\n'] := by
    refine ⟨(ls.map String.toList).flatMap (· ++ ['\n']) ++
      (step.kind.keyword.toList ++ ' ' :: step.text.toList), ?_⟩
    simp [Step.toList_render]
  rw [joinLines, String.toList_append, String.toList_ofList, hlines, hcs,
    trimEnd_append_blank (by decide), trimEnd_append_singleton (by decide)]
  rfl

variable {ls : List String} {ms : List Line} {previous : Option Kind} {steps : List (Step Nat)}
  {block : List Token} {bs : List (List Token)}

theorem oneLine_of_writes (h : List.Forall₂ Writes ls ms) :
    ∀ l ∈ ls.map String.toList, OneLine l := by
  induction h with
  | nil => simp
  | cons hl _ ih => exact List.forall_mem_cons.2 ⟨hl.oneLine, ih⟩

theorem exists_tokensFrom (h : List.Forall₂ Writes ls ms) (n : Nat) :
    ∃ ts, tokensFrom n (ls.map String.toList) = .ok ts ∧ ts.map (·.line) = ms := by
  induction h generalizing n with
  | nil => exact ⟨[], rfl, rfl⟩
  | @cons l m ls ms hl _ ih =>
    obtain ⟨ts, hts, hlines⟩ := ih (n + 1)
    refine ⟨⟨m, n⟩ :: ts, ?_, by simp [hlines]⟩
    rw [List.map_cons, tokensFrom, hl.read]
    exact bind_eq_ok.2 ⟨ts, hts, rfl⟩

theorem exists_flatMap_blank {bs : List (List Line)} (h : bs ≠ []) :
    ∃ ms, bs.flatMap (· ++ [.blank]) = ms ++ [.blank] := by
  obtain ⟨init, last, rfl⟩ : ∃ init last, bs = init ++ [last] :=
    ⟨_, _, (List.dropLast_append_getLast h).symm⟩
  refine ⟨init.flatMap (· ++ [.blank]) ++ last, ?_⟩
  simp

theorem exists_tokens_render (h : s.Legible) :
    ∃ ts, tokens s.render = .ok ts ∧
      ts.map (·.line) ++ [.blank] = s.asBlocks.flatMap (· ++ [.blank]) := by
  obtain ⟨ls, step, hls⟩ := exists_renderLines_eq h
  obtain ⟨ms, hms⟩ := exists_flatMap_blank (show s.asBlocks ≠ [] by
    simp [Document.asBlocks, h.scenarios_ne_nil])
  have hwrites := writes_renderLines h
  rw [hls, hms] at hwrites
  have hlen : (ls ++ [step.render]).length = ms.length := by simpa using hwrites.length_eq
  have hlines := List.forall₂_take_append _ _ _ hwrites
  rw [← hlen, List.take_left] at hlines
  obtain ⟨ts, hts, hmap⟩ := exists_tokensFrom hlines 1
  refine ⟨ts, ?_, by rw [hmap, hms]⟩
  rw [tokens, Document.render, hls, toList_joinLines, lines_flatMap (oneLine_of_writes hlines), hts]

/-! Reading the lines of a written spec. -/

theorem blocks_cons_blank {t : Token} (h : t.line.isBlank = true) :
    blocks (t :: ts) = blocks ts := by
  simp [blocks, h]

theorem blocks_append {b : List Token} (hb : b ≠ []) (h : ∀ t ∈ b, t.line.isBlank = false)
    (hts : ∀ u ∈ ts.head?, u.line.isBlank = true) : blocks (b ++ ts) = b :: blocks ts := by
  induction b with
  | nil => exact absurd rfl hb
  | cons t b ih =>
    obtain ⟨ht, hrest⟩ := List.forall_mem_cons.1 h
    cases b with
    | nil =>
      cases ts with
      | nil => simp [blocks, ht]
      | cons u ts =>
        rw [List.cons_append, List.nil_append, blocks]
        simp [ht, hts u rfl]
    | cons v b =>
      have hv := hrest v List.mem_cons_self
      have hrec := ih (by simp) hrest
      rw [List.cons_append] at hrec
      rw [List.cons_append, List.cons_append, blocks]
      simp [ht, hv, hrec]

/-- The blocks of a text in which a blank line stands between any two. -/
theorem blocks_of_lines {bs : List (List Line)}
    (hbs : ∀ b ∈ bs, b ≠ [] ∧ ∀ line ∈ b, line.isBlank = false)
    (h : ts.map (·.line) ++ [.blank] = bs.flatMap (· ++ [.blank])) :
    (blocks ts).map (·.map (·.line)) = bs := by
  induction bs generalizing ts with
  | nil => simp at h
  | cons b bs ih =>
    obtain ⟨⟨hne, hb⟩, hrest⟩ := List.forall_mem_cons.1 hbs
    -- The tokens of the first block, and those from its blank line on if another block is there.
    obtain ⟨tb, tr, rfl, rfl, hhead, hblocks⟩ : ∃ tb tr, ts = tb ++ tr ∧ tb.map (·.line) = b ∧
        (∀ u ∈ tr.head?, u.line.isBlank = true) ∧ (blocks tr).map (·.map (·.line)) = bs := by
      cases bs with
      | nil => exact ⟨ts, [], by simp, by simpa using h, by simp, rfl⟩
      | cons c bs =>
        obtain ⟨ms, hms⟩ := exists_flatMap_blank (List.cons_ne_nil c bs)
        rw [List.flatMap_cons, hms, ← List.append_assoc, List.append_cancel_right_eq,
          List.append_assoc, List.map_eq_append_iff] at h
        obtain ⟨tb, tr, rfl, htb, htr⟩ := h
        obtain ⟨u, tr, rfl, hu, hlines⟩ := List.map_eq_cons_iff.1 htr
        refine ⟨tb, u :: tr, rfl, htb, by simp [hu, Line.isBlank], ?_⟩
        rw [blocks_cons_blank (by simp [hu, Line.isBlank])]
        exact ih hrest (by rw [hlines, hms]; rfl)
    rw [blocks_append (by simpa using hne) (by simpa using hb) hhead, List.map_cons, hblocks]

theorem readSteps_append {us : List Token} (previous : Option Kind)
    (h : ∀ t ∈ ts, t.line.isStep = false) :
    readSteps previous (ts ++ us) = readSteps previous us := by
  induction ts with
  | nil => rfl
  | cons t ts ih =>
    obtain ⟨ht, hts⟩ := List.forall_mem_cons.1 h
    rw [List.cons_append, readSteps_of_not_isStep ht, ih hts]

theorem kind_keyword {k : Kind} {statement : String} (h : ∀ j ∈ previous, k.mayFollow j = true) :
    (Lead.keyword k).kind statement previous = .ok k := by
  cases previous with
  | none => rfl
  | some j => simp [Lead.kind, h j rfl]

theorem exists_readSteps (hsteps : ∀ s ∈ steps, s.Legible)
    (horder : Kind.InOrder (previous.toList ++ steps.map (·.kind)))
    (hts : ts.map (·.line) = steps.map Step.asLine) : ∃ read, readSteps previous ts = .ok read ∧
      read.map (Step.map fun _ => ()) = steps.map (Step.map fun _ => ()) := by
  induction steps generalizing ts previous with
  | nil =>
    rw [List.map_nil, List.map_eq_nil_iff] at hts
    subst hts
    exact ⟨[], rfl, rfl⟩
  | cons s steps ih =>
    obtain ⟨hs, hrest⟩ := List.forall_mem_cons.1 hsteps
    obtain ⟨⟨line, n⟩, us, rfl, rfl, hus⟩ := List.map_eq_cons_iff.1 hts
    have hmay : ∀ j ∈ previous, s.kind.mayFollow j = true := by
      rintro j rfl
      exact List.rel_of_pairwise_cons horder List.mem_cons_self
    have horder' : Kind.InOrder ((some s.kind).toList ++ steps.map (·.kind)) :=
      List.Pairwise.sublist (List.sublist_append_right _ _) horder
    obtain ⟨read, hread, hsame⟩ := ih hrest horder' hus
    refine ⟨⟨s.kind, s.text, s.parameters, n⟩ :: read, ?_, by simp [Step.map, hsame]⟩
    exact readSteps_cons_eq_ok.2 ⟨_, _, read, kind_keyword hmay, hs.parameters, hread, rfl⟩

theorem missingKind?_congr {read : List (Step Nat)}
    (h : read.map (Step.map fun _ => ()) = steps.map (Step.map fun _ => ())) :
    missingKind? read = missingKind? steps := by
  have hkinds : read.map (·.kind) = steps.map (·.kind) := by
    simpa [Step.map, Function.comp_def] using congrArg (List.map (·.kind)) h
  have hany (k : Kind) : read.any (·.kind = k) = steps.any (·.kind = k) := by
    simpa [List.any_map, Function.comp_def] using congrArg (List.any · (· = k)) hkinds
  simp [missingKind?, hany]

theorem commentText_captionLines (h : IsCaption text) (hts : ts.map (·.line) = captionLines text) :
    commentText ts = text := by
  have hparts : ts.filterMap (·.line.comment?) = (captionLines text).filterMap Line.comment? := by
    rw [← hts, List.filterMap_map]
    rfl
  rw [commentText, hparts, captionLines]
  split
  · next hempty =>
    rw [hempty]
    rfl
  · next hne =>
    have hcomment : (Line.comment text).comment? = some text := if_neg hne
    rw [List.filterMap_cons_none rfl, List.filterMap_cons_some hcomment, List.filterMap_cons_none rfl]
    simp [h.trimmed.trim]

theorem isStep_of_mem_captionLines :
    ∀ line ∈ captionLines text, line.isStep = false := by
  unfold captionLines
  split <;> simp [Line.isStep]

/-- The scenario that is read from the lines of a scenario. -/
theorem exists_readScenario {s : Scenario String Nat} (h : s.Legible)
    (hblock : block.map (·.line) = s.asLines) :
    ∃ read, readScenario block = .ok read ∧ read.map id (fun _ => ()) = s.map id fun _ => () := by
  obtain ⟨head, body, rfl, hhead, hbody⟩ := List.map_eq_append_iff.1 hblock
  have hnoStep : ∀ t ∈ head, t.line.isStep = false := fun t ht =>
    isStep_of_mem_captionLines _ (hhead ▸ List.mem_map_of_mem ht)
  have hstep : ∀ t ∈ body, t.line.isStep = true := by
    intro t ht
    have hmem : t.line ∈ s.steps.map Step.asLine := hbody ▸ List.mem_map_of_mem ht
    obtain ⟨step, -, hline⟩ := List.mem_map.1 hmem
    rw [← hline]
    rfl
  have htitle : commentText ((head ++ body).takeWhile (!·.line.isStep)) = s.title := by
    have htake : (head ++ body).takeWhile (!·.line.isStep) = head := by
      rw [List.takeWhile_append_of_pos (by simpa using hnoStep)]
      cases body with
      | nil => simp
      | cons t body => simp [hstep t List.mem_cons_self]
    rw [htake, commentText_captionLines h.title hhead]
  obtain ⟨steps, hsteps, hsame⟩ :=
    exists_readSteps h.steps (show Kind.InOrder (none.toList ++ _) from h.inOrder) hbody
  refine ⟨⟨s.title, steps, firstLine (head ++ body)⟩, ?_, by simp [Scenario.map, hsame]⟩
  rw [← htitle]
  exact readScenario_eq_ok.2 ⟨steps, (readSteps_append none hnoStep).trans hsteps,
    (missingKind?_congr hsame).trans h.complete, rfl⟩

theorem hasStep_of_lines {s : Scenario String Nat} (h : s.Legible)
    (hblock : block.map (·.line) = s.asLines) : hasStep block = true := by
  have hany : hasStep block = s.asLines.any Line.isStep := by
    rw [← hblock, hasStep, List.any_map]
    rfl
  obtain ⟨step, steps, hsteps⟩ := List.exists_cons_of_ne_nil h.steps_ne_nil
  rw [hany, Scenario.asLines, hsteps]
  simp [Step.asLine, Line.isStep]

theorem exists_readScenarios {ss : List (Scenario String Nat)} (h : ∀ s ∈ ss, s.Legible)
    (hbs : bs.map (·.map (·.line)) = ss.map Scenario.asLines) :
    (∀ b ∈ bs, hasStep b = true) ∧ ∃ read, bs.mapM readScenario = .ok read ∧
      read.map (Scenario.map id fun _ => ()) = ss.map (Scenario.map id fun _ => ()) := by
  induction ss generalizing bs with
  | nil =>
    rw [List.map_nil, List.map_eq_nil_iff] at hbs
    subst hbs
    exact ⟨by simp, [], rfl, rfl⟩
  | cons s ss ih =>
    obtain ⟨hs, hss⟩ := List.forall_mem_cons.1 h
    obtain ⟨b, cs, rfl, hb, hcs⟩ := List.map_eq_cons_iff.1 hbs
    obtain ⟨hall, read, hread, hsame⟩ := ih hss hcs
    obtain ⟨scenario, hscenario, heq⟩ := exists_readScenario hs hb
    refine ⟨List.forall_mem_cons.2 ⟨hasStep_of_lines hs hb, hall⟩, scenario :: read, ?_, ?_⟩
    · rw [List.mapM_cons]
      exact bind_eq_ok.2 ⟨scenario, hscenario, bind_eq_ok.2 ⟨read, hread, rfl⟩⟩
    · rw [List.map_cons, List.map_cons, heq, hsame]

/-- The first block of a written spec is no scenario just if there is a description. -/
theorem descriptionOf_of_lines (h : s.Legible) (hbs : bs.map (·.map (·.line)) = s.asBlocks) :
    descriptionOf bs = s.description ∧
      (bs.filter hasStep).map (·.map (·.line)) = s.scenarios.map Scenario.asLines := by
  unfold Document.asBlocks at hbs
  split at hbs
  · next hempty =>
    have hall := (exists_readScenarios h.scenarios hbs).1
    refine ⟨?_, by rw [List.filter_eq_self.2 hall]; exact hbs⟩
    rw [hempty]
    cases bs with
    | nil => rfl
    | cons b bs => simp [descriptionOf, hall b List.mem_cons_self]
  · obtain ⟨b, cs, rfl, hb, hcs⟩ := List.map_eq_cons_iff.1 hbs
    have hall := (exists_readScenarios h.scenarios hcs).1
    have hno : hasStep b = false := by
      rw [hasStep, List.any_eq_false]
      intro t ht
      rw [isStep_of_mem_captionLines _ (hb ▸ List.mem_map_of_mem ht)]
      simp
    constructor
    · simp [descriptionOf, hno, commentText_captionLines h.description hb]
    · rw [List.filter_cons_of_neg (by simp [hno]), List.filter_eq_self.2 hall]
      exact hcs

theorem exists_readTokens (h : s.Legible) (hts : (blocks ts).map (·.map (·.line)) = s.asBlocks) :
    ∃ t, readTokens s.path ts = .ok t ∧ t.withoutLines = s.withoutLines := by
  obtain ⟨hdescription, hbs⟩ := descriptionOf_of_lines h hts
  obtain ⟨-, read, hread, hsame⟩ := exists_readScenarios h.scenarios hbs
  have hne : read ≠ [] := by
    rintro rfl
    exact h.scenarios_ne_nil (by simpa using hsame.symm)
  refine ⟨⟨s.path, s.description, read⟩, ?_, ?_⟩
  · exact readTokens_eq_ok.2 ⟨read, hread, hne, by rw [hdescription]⟩
  · simp [Document.withoutLines, Document.map, hsame]

theorem ne_nil_of_mem_asBlocks (h : s.Legible) :
    ∀ b ∈ s.asBlocks, b ≠ [] ∧ ∀ line ∈ b, line.isBlank = false := by
  intro b hb
  have hcaption (text : String) : ∀ line ∈ captionLines text, line.isBlank = false := by
    unfold captionLines
    split <;> simp [Line.isBlank]
  rcases List.mem_append.1 hb with hb | hb
  · split at hb
    · cases hb
    · next hne =>
      rw [List.mem_singleton.1 hb]
      exact ⟨by simp [captionLines, hne], hcaption s.description⟩
  · obtain ⟨scenario, hscenario, rfl⟩ := List.mem_map.1 hb
    have hsteps := (h.scenarios scenario hscenario).steps_ne_nil
    refine ⟨by simp [Scenario.asLines, hsteps], fun line hline => ?_⟩
    rcases List.mem_append.1 hline with hline | hline
    · exact hcaption _ line hline
    · obtain ⟨step, -, rfl⟩ := List.mem_map.1 hline
      rfl

/-- Reading the written form of a spec that a text can say gives what the spec says. -/
theorem exists_parse_render (h : s.Legible) :
    ∃ t, parse s.render (some s.path) = .ok t ∧ t.withoutLines = s.withoutLines := by
  obtain ⟨ts, hts, hlines⟩ := exists_tokens_render h
  obtain ⟨t, ht, hsame⟩ :=
    exists_readTokens h (blocks_of_lines (ne_nil_of_mem_asBlocks h) hlines)
  refine ⟨t, ?_, hsame⟩
  have hpath : sourceName (some s.path) = s.path := if_neg h.path
  have hread : (tokens s.render >>= readTokens (sourceName (some s.path))) = .ok t := by
    rw [hpath]
    exact bind_eq_ok.2 ⟨ts, hts, ht⟩
  rw [parse, hread]
  rfl

/-- Rendering undoes parsing: only line numbers are lost. -/
theorem parse_render {content : String} {source : Option String} {s : Spec}
    (h : parse content source = .ok s) :
    ∃ t, parse s.render (some s.path) = .ok t ∧ t.withoutLines = s.withoutLines :=
  exists_parse_render (legible_of_parse h)

/-- Comments on two lines, a statement that ends in a period of its own or starts with a keyword,
and a step without a keyword. -/
def loosely : String :=
  "; Sums\n;; of = 2\n\n  ;===\n; Up\n WHEN WHEN it adds \"3\" . .\nTHEN GIVEN more .\nit holds.\n"

theorem parse_render_loosely : ∃ s, parse loosely none = .ok s ∧
    ∃ t, parse s.render (some s.path) = .ok t ∧ t.withoutLines = s.withoutLines := by
  have h : (parse loosely none).toOption = some ⟨"<string>", "Sums ; of = 2",
      [⟨"Up", [⟨.action, "WHEN it adds \"3\" .", [⟨"adds", .text "3"⟩], 6⟩,
        ⟨.outcome, "GIVEN more", [], 7⟩, ⟨.outcome, "it holds", [], 8⟩], 4⟩]⟩ := by
    decide +kernel
  exact ⟨_, eq_ok_of_toOption h, parse_render (eq_ok_of_toOption h)⟩

end Acceptance.Spec

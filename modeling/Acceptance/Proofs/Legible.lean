import Acceptance.Proofs.StepOrder
import Acceptance.Proofs.TextLines
/-!
Specs that a text can say. Every spec that was read is one: its captions and statements fit on lines
of their own, its parameters are those of its statements, and its scenarios are in order and complete.
-/
namespace Acceptance.Spec

open Text

/-- A text that a comment line can hold. -/
structure IsCaption (t : String) : Prop where
  trimmed : Trimmed t.toList
  oneLine : OneLine t.toList
  noBar : ¬"===".toList <:+: t.toList

/-- A text that a step line can hold, before its period. -/
structure IsStatement (t : String) : Prop where
  ne_nil : t.toList ≠ []
  trimmed : Trimmed t.toList
  oneLine : OneLine t.toList
  quotes : t.toList.count '"' % 2 = 0

def Line.Legible : Line → Prop
  | .comment text => IsCaption text
  | .step _ statement => IsStatement statement
  | _ => True

structure Step.Legible {ν : Type} (s : Step ν) : Prop where
  statement : IsStatement s.text
  parameters : extract s.text = .ok s.parameters

structure Scenario.Legible (s : Scenario String Nat) : Prop where
  title : IsCaption s.title
  steps : ∀ step ∈ s.steps, step.Legible
  inOrder : Kind.InOrder (s.steps.map (·.kind))
  complete : missingKind? s.steps = none

structure Legible (s : Spec) : Prop where
  path : s.path ≠ ""
  description : IsCaption s.description
  scenarios_ne_nil : s.scenarios ≠ []
  scenarios : ∀ scenario ∈ s.scenarios, scenario.Legible

variable {cs : List Char} {ts : List Token}

theorem splitLead_trimmed (h : Trimmed cs) : Trimmed (splitLead cs).2 := by
  unfold splitLead
  split
  · exact trimmed_trim _
  · exact h

theorem splitLead_isInfix (cs : List Char) : (splitLead cs).2 <:+: cs := by
  unfold splitLead
  split
  · exact (trim_isInfix _).trans (List.drop_suffix _ _).isInfix
  · exact List.infix_rfl

theorem isStatement_of_readStatement {body statement : List Char} (htrimmed : Trimmed body)
    (hline : OneLine body) (h : readStatement body = .ok statement) :
    IsStatement (String.ofList statement) := by
  simp only [readStatement] at h
  split at h
  · cases h
  · next hquotes =>
    split at h
    · cases h
    · next hdot =>
      split at h
      · cases h
      · next hne =>
        cases h
        have hpre : trimEnd body.dropLast <+: body :=
          (trimEnd_isPrefix _).trans (List.dropLast_prefix body)
        -- What is cut off at the end is a period and blanks, so no quote is lost.
        obtain ⟨ds, hds, hblank⟩ := exists_append_of_trimEnd body.dropLast
        have hbody : body = trimEnd body.dropLast ++ ds ++ ['.'] := by
          rw [← hds]
          exact (List.dropLast_append_getLast? '.' (by simpa using hdot)).symm
        have hno : ds.count '"' = 0 := by
          rw [List.count_eq_zero]
          intro hmem
          exact absurd (hblank _ hmem) (by decide)
        have hcount : body.count '"' = (trimEnd body.dropLast).count '"' := by
          conv => lhs; rw [hbody]
          simp [hno]
        constructor
        · simpa using hne
        · simp only [String.toList_ofList]
          exact ⟨trimStart_of_isPrefix htrimmed.start hpre, List.rdropWhile_idempotent isBlank _⟩
        · simpa using hline.of_isInfix hpre.isInfix
        · rw [String.toList_ofList, ← hcount]
          omega

theorem legible_of_readLine {line : Line} (hline : OneLine cs) (h : readLine cs = .ok line) :
    line.Legible := by
  have htrim : OneLine (trim cs) := hline.of_isInfix (trim_isInfix cs)
  have htrimmed := trimmed_trim cs
  unfold readLine at h
  split at h
  · cases h
    trivial
  · next rest hrest =>
    rw [hrest] at htrim
    split at h
    · cases h
      trivial
    · next hbar =>
      cases h
      have htext : (String.ofList (trim rest)).toList = trim rest := String.toList_ofList
      constructor
      · rw [htext]
        exact trimmed_trim rest
      · rw [htext]
        exact (oneLine_cons.1 htrim).2.of_isInfix (trim_isInfix rest)
      · rw [htext]
        exact fun hocc => hbar (occurs_iff.2 (hocc.trans (trim_isInfix rest)))
  · dsimp only at h
    cases hread : readStatement (splitLead (trim cs)).2 with
    | error e =>
      rw [hread] at h
      cases h
    | ok statement =>
      rw [hread] at h
      cases h
      exact isStatement_of_readStatement (splitLead_trimmed htrimmed)
        (htrim.of_isInfix (splitLead_isInfix _)) hread

theorem legible_of_tokensFrom {n : Nat} {ls : List (List Char)} (hls : ∀ l ∈ ls, OneLine l)
    (h : tokensFrom n ls = .ok ts) : ∀ t ∈ ts, t.line.Legible := by
  induction ls generalizing n ts with
  | nil =>
    cases h
    simp
  | cons l ls ih =>
    rw [tokensFrom] at h
    split at h
    · cases h
    · next line hread =>
      obtain ⟨rest, hrest, h⟩ := bind_eq_ok.1 h
      cases h
      intro t ht
      rcases List.mem_cons.1 ht with rfl | ht
      · exact legible_of_readLine (hls l List.mem_cons_self) hread
      · exact ih (fun m hm => hls m (List.mem_cons_of_mem _ hm)) hrest t ht

theorem mem_of_mem_blocks : ∀ b ∈ blocks ts, ∀ t ∈ b, t ∈ ts := by
  fun_induction blocks ts with
  | case1 => simp
  | case2 t ts _ ih => exact fun b hb u hu => List.mem_cons_of_mem _ (ih b hb u hu)
  | case3 t => simp
  | case4 t u ts _ _ ih =>
    intro b hb v hv
    rcases List.mem_cons.1 hb with rfl | hb
    · simp_all
    · exact List.mem_cons_of_mem _ (ih b hb v hv)
  | case5 t _ u ts _ hbs _ => simp [hbs]
  | case6 t _ u ts _ b bs hbs ih =>
    rw [hbs] at ih ⊢
    intro c hc v hv
    rcases List.mem_cons.1 hc with rfl | hc
    · rcases List.mem_cons.1 hv with rfl | hv
      · exact List.mem_cons_self
      · exact List.mem_cons_of_mem _ (ih b List.mem_cons_self v hv)
    · exact List.mem_cons_of_mem _ (ih c (List.mem_cons_of_mem _ hc) v hv)

theorem isCaption_empty : IsCaption "" := ⟨⟨rfl, rfl⟩, by simp [OneLine], by simp⟩

/-- Captions joined by spaces have no break and no bar in them. -/
theorem intercalate_space {ps : List (List Char)}
    (h : ∀ p ∈ ps, OneLine p ∧ ¬"===".toList <:+: p) :
    OneLine ([' '].intercalate ps) ∧ ¬"===".toList <:+: [' '].intercalate ps := by
  induction ps with
  | nil => exact ⟨by simp [OneLine], by simp⟩
  | cons p ps ih =>
    obtain ⟨hp, hps⟩ := List.forall_mem_cons.1 h
    cases ps with
    | nil => simpa using hp
    | cons q ps =>
      obtain ⟨hline, hbar⟩ := ih hps
      rw [List.intercalate_cons_cons, List.append_assoc, List.singleton_append]
      refine ⟨oneLine_append.2 ⟨hp.1, oneLine_cons.2 ⟨rfl, hline⟩⟩, ?_⟩
      intro hocc
      rcases infix_append_cons (by decide) hocc with hocc | hocc
      · exact hp.2 hocc
      · exact hbar hocc

theorem legible_of_comment? {line : Line} {text : String} (hline : line.Legible)
    (h : line.comment? = some text) : IsCaption text := by
  cases line with
  | comment text' =>
    simp only [Line.comment?] at h
    split at h
    · cases h
    · cases h
      exact hline
  | _ => cases h

theorem isCaption_commentText (h : ∀ t ∈ ts, t.line.Legible) : IsCaption (commentText ts) := by
  have hparts : ∀ p ∈ (ts.filterMap (·.line.comment?)).map String.toList,
      OneLine p ∧ ¬"===".toList <:+: p := by
    intro p hp
    obtain ⟨text, htext, rfl⟩ := List.mem_map.1 hp
    obtain ⟨t, ht, hcomment⟩ := List.mem_filterMap.1 htext
    have hcaption := legible_of_comment? (h t ht) hcomment
    exact ⟨hcaption.oneLine, hcaption.noBar⟩
  obtain ⟨hline, hbar⟩ := intercalate_space hparts
  have htext : (commentText ts).toList =
      trim ([' '].intercalate ((ts.filterMap (·.line.comment?)).map String.toList)) := by
    simp [commentText]
  constructor
  · rw [htext]
    exact trimmed_trim _
  · rw [htext]
    exact hline.of_isInfix (trim_isInfix _)
  · rw [htext]
    exact fun hocc => hbar (hocc.trans (trim_isInfix _))

theorem legible_of_readSteps {previous : Option Kind} {steps : List (Step Nat)}
    (hts : ∀ t ∈ ts, t.line.Legible) (h : readSteps previous ts = .ok steps) :
    ∀ s ∈ steps, s.Legible :=
  forall_of_readSteps (fun _ _ _ _ _ ht hps => ⟨ht, hps⟩) hts h

theorem legible_of_readScenario {block : List Token} {s : Scenario String Nat}
    (hblock : ∀ t ∈ block, t.line.Legible) (h : readScenario block = .ok s) : s.Legible := by
  obtain ⟨steps, hsteps, hcomplete, rfl⟩ := readScenario_eq_ok.1 h
  exact ⟨isCaption_commentText fun t ht => hblock t ((List.takeWhile_prefix _).subset ht),
    legible_of_readSteps hblock hsteps, inOrder_of_readSteps hsteps, hcomplete⟩

theorem sourceName_ne_empty (source : Option String) : sourceName source ≠ "" := by
  unfold sourceName
  split
  · decide
  · split
    · decide
    · assumption

theorem legible_of_parse {content : String} {source : Option String} {s : Spec}
    (h : parse content source = .ok s) : s.Legible := by
  obtain ⟨ts, hts, h⟩ := bind_eq_ok.1 (eq_ok_of_mapError h)
  have htokens := legible_of_tokensFrom oneLine_of_mem_lines hts
  have hblocks : ∀ b ∈ blocks ts, ∀ t ∈ b, t.line.Legible :=
    fun b hb t ht => htokens t (mem_of_mem_blocks b hb t ht)
  obtain ⟨scenarios, hscenarios, hne, rfl⟩ := readTokens_eq_ok.1 h
  refine ⟨sourceName_ne_empty source, ?_, hne, ?_⟩
  · unfold descriptionOf
    split
    · exact isCaption_empty
    · next b bs hbs =>
      split
      · exact isCaption_empty
      · exact isCaption_commentText (hblocks b (hbs ▸ List.mem_cons_self))
  · intro s hs
    obtain ⟨b, hb, hread⟩ := exists_of_mem_mapM hscenarios s hs
    exact legible_of_readScenario (hblocks b (List.mem_of_mem_filter hb)) hread

end Acceptance.Spec

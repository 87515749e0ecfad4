import Acceptance.Proofs.BoundSteps
import Acceptance.Proofs.Layout
import Acceptance.Proofs.RegistryRules
/-!
A template can be copied from a line. The pattern is spaced before its period goes, and the line
loses its period before it is spaced; both come to one text. A pattern matches that text too when it
has holes in it, since each hole can be filled with how it is written.
-/
namespace Acceptance

namespace Registry

open Text Spec

theorem cleanPattern_append_period (cs : List Char) : cleanPattern (cs ++ ['.']) = respace cs := by
  simp only [cleanPattern, respace_append_period, List.getLast?_concat, List.dropLast_concat, if_true]
  rfl

/-- It makes no difference whether the period goes before or after spacing. -/
theorem cleanPattern_of_isBody {body : List Char} (h : IsBody body) :
    cleanPattern body = respace (trim body.dropLast) := by
  obtain ⟨b, rfl⟩ : ∃ b, body = b ++ ['.'] :=
    ⟨body.dropLast, (List.dropLast_append_getLast? '.' (by simpa using h.period)).symm⟩
  rw [cleanPattern_append_period, List.dropLast_concat, respace_trim]

theorem mayTake_holeText {name : List Char} (h : isName name = true) (quoted : Bool) :
    MayTake quoted (Frame.holeText name) := by
  have hno (c : Char) (hc : isNameChar c = false) (hbrace : c ≠ '\x7b' ∧ c ≠ '\x7d') :
      c ∉ Frame.holeText name := by
    have hname : c ∉ name := by
      intro hmem
      have := isNameChar_of_isName h c hmem
      rw [hc] at this
      cases this
    simp [Frame.holeText, hname, hbrace]
  cases quoted with
  | true => exact hno '"' (by decide) (by decide)
  | false => exact ⟨by simp [Frame.holeText], hno '\n' (by decide) (by decide)⟩

/-- A pattern makes up its own text, with each hole filled by how it is written. -/
theorem splits_self (q : Bool) (cs : List Char) : Splits (piecesFrom q cs) cs
    ((holeNames (piecesFrom q cs)).map fun name => Frame.holeText name.toList) := by
  fun_induction piecesFrom q cs with
  | case1 => exact .nil
  | case2 q cs name rest htake ih =>
    obtain ⟨hname, rfl⟩ := of_takeHole? htake
    have hwhole := @Splits.hole (String.ofList name) (q && startsWithQuote rest) _ _ _ _
      (mayTake_holeText hname _) ih
    simpa [Frame.holeText, holeNames, Piece.name?] using hwhole
  | case3 q cs htake ih => exact .char ih
  | case4 q c cs hc ih => exact .char ih

theorem quotesClosed_piecesFrom (cs : List Char) : QuotesClosed (piecesFrom false cs) := by
  obtain ⟨hwell, htext⟩ := (Frame.eq_ofPieces_iff cs).1 rfl
  rw [← htext, Frame.pieces_text hwell]
  exact Frame.quotesClosed_append _ (Frame.quotesClosed_holePieces _ _)

/-- Every pattern matches its own text. -/
theorem captures?_self (pattern : String) : (captures? pattern pattern).isSome = true := by
  obtain ⟨found, hfit, -⟩ :=
    fit_of_splits (quotesClosed_piecesFrom _) (splits_self false pattern.toList)
  rw [captures?, pieces, hfit]
  rfl

theorem eq_of_patternOf_text {s : String} {p : Phrase} (h : patternOf (.text s) = .ok p) :
    p = Phrase.ofText (String.ofList (cleanPattern s.toList)) := by
  obtain ⟨told, htold, h⟩ := bind_eq_ok.1 h
  cases htold
  dsimp only at h
  split at h
  · cases h
  · cases h
    exact Phrase.change_ofText s cleanPattern

theorem kindOf_keyword (k : Kind) : kindOf (.text k.keyword) = .ok k := by
  cases k <;> rfl

end Registry

namespace Spec

open Text

/-- What a step line says can be read off from its body without the blanks around it. -/
theorem statementOf_eq {line : List Char} (h : IsBody (bodyOf line)) :
    statementOf line = trim (trim (bodyOf line)).dropLast := by
  obtain ⟨b, hb⟩ : ∃ b, bodyOf line = b ++ ['.'] :=
    ⟨_, (List.dropLast_append_getLast? '.' (by simpa using h.period)).symm⟩
  rw [statementOf, hb, List.dropLast_concat, trim_append_singleton (by decide), List.dropLast_concat,
    trim, trim, trimStart_trimStart]

theorem trimmed_of_mem {text : String} {l : List Char × Nat} (h : l ∈ trimmedLines text) :
    Trimmed l.1 := by
  obtain ⟨line, -, hline⟩ := List.mem_map.1 (List.fst_mem_of_mem_zipIdx h)
  rw [← hline]
  exact trimmed_trim line

/-- Each step line comes to a step of the plan. -/
theorem exists_step_of_line {text : String} {source : Option String} {s : Spec} {p : Plan}
    (hs : parse text source = .ok s) (hp : Plan.ofSpec s = .ok p) {l : List Char × Nat}
    (hl : l ∈ trimmedLines text) (hstep : isStepLine l.1 = true) :
    ∃ scenario ∈ p.scenarios, ∃ step ∈ scenario.steps, step.line = l.2 ∧
      step.statement = Text.normalize (String.ofList (statementOf l.1)) := by
  have hflat : l ∈ (stepRuns text).flatten := by
    rw [flatten_stepRuns]
    exact List.mem_filter.2 ⟨hl, hstep⟩
  obtain ⟨run, hrun, hmem⟩ := List.mem_flatten.1 hflat
  obtain ⟨scenario, hscenario, hreads⟩ :=
    exists_of_mem_forall₂ (reads_of_parse hs).flip run hrun
  have hpairs : scenario.steps.map (fun t => (t.text.toList, t.line)) =
      run.map fun l => (statementOf l.1, l.2) := by
    rw [← List.zip_map', ← List.zip_map', hreads.texts, hreads.lines]
  obtain ⟨step, hin, hsame⟩ := List.mem_map.1 (hpairs ▸ List.mem_map_of_mem hmem)
  obtain ⟨htext, hline⟩ := Prod.mk.inj hsame
  obtain rfl := Except.ok.inj (hp.symm.trans (ofSpec_of_legible (legible_of_parse hs)))
  refine ⟨_, List.mem_map_of_mem hscenario, _, List.mem_map_of_mem hin, hline, ?_⟩
  rw [← htext, String.ofList_toList]
  rfl

end Spec

namespace Registry

open Spec

/-- If a registry with one template is read, and the pattern is what a step line has behind its
lead, then the pattern is kept as the very statement that a plan has for such a line, and the
template matches it. -/
theorem matches_copied_line {v w : Value} {es : Entries} {source body : String} {r : Registry}
    (kind : Kind) (hbody : IsBody body.toList) (hr : ofValue v source = .ok r)
    (hv : templateEntries v = [w]) (hw : w.entries? = some es)
    (hkind : member es "kind" = .text kind.keyword) (hpattern : member es "pattern" = .text body) :
    ∃ t statement, r.templates = [t] ∧ t.kind = kind ∧
      statement = Text.normalize (String.ofList (Text.trim body.toList.dropLast)) ∧
      t.pattern = Phrase.ofText statement ∧ (t.captures? statement).isSome = true ∧
      ∀ text path s p, Spec.parse text path = .ok s → Plan.ofSpec s = .ok p →
        ∀ l ∈ trimmedLines text, isStepLine l.1 = true → (splitLead l.1).2 = body.toList →
          ∃ scenario ∈ p.scenarios, ∃ step ∈ scenario.steps,
            step.line = l.2 ∧ step.statement = statement := by
  have hread := forall₂_of_templatesFrom (templatesFrom_of_ofValue hr)
  rw [hv] at hread
  obtain ⟨t, rest, ht, hrest, htemplates⟩ := List.forall₂_cons_left_iff.1 hread
  obtain rfl := List.forall₂_nil_left_iff.1 hrest
  obtain ⟨es', hes', hkept, -⟩ := templateOf_cases ht
  obtain rfl := Option.some.inj (hw.symm.trans hes')
  have hk : t.kind = kind := by
    have hread := kindOf_of_templateOf hw ht
    rw [hkind, kindOf_keyword] at hread
    exact (Except.ok.inj hread).symm
  have hp : t.pattern =
      Phrase.ofText (Text.normalize (String.ofList (Text.trim body.toList.dropLast))) := by
    rw [hpattern] at hkept
    rw [eq_of_patternOf_text hkept, cleanPattern_of_isBody hbody, Text.normalize,
      String.toList_ofList]
  refine ⟨t, _, htemplates, hk, rfl, hp, ?_, fun text path s p hs hplan l hl hstep hsame => ?_⟩
  · rw [Template.captures?, hp, Phrase.text?_ofText]
    exact captures?_self _
  · have hline : IsBody (bodyOf l.1) := (parse_eq_ok.1 hs).1 l hl hstep
    rw [splitLead_eq (trimmed_of_mem hl)] at hsame
    rw [← hsame, ← statementOf_eq hline]
    exact exists_step_of_line hs hplan hl hstep

/-- Blanks in quotes and elsewhere, holes in quotes and elsewhere, and periods with blanks before
them. -/
def noteBody : String := "note \"a  \x7bx\x7d\" as  \x7by\x7d . ."

def noteRegister : Value :=
  .record [("module", .text "desk.notes"), ("templates", .list [
    .record [("kind", .text "WHEN"), ("pattern", .text noteBody), ("operation", .text "note")]])]

def noteText : String := "WHEN   " ++ noteBody ++ "\nTHEN it is kept."

theorem matches_copied_line_note : IsBody noteBody.toList ∧ ∃ r t s p,
    ofValue noteRegister "notes.yaml" = .ok r ∧ r.templates = [t] ∧ t.kind = .action ∧
      Spec.parse noteText none = .ok s ∧ Plan.ofSpec s = .ok p ∧
      ∃ scenario ∈ p.scenarios, ∃ step ∈ scenario.steps,
        step.line = 1 ∧ step.statement = "note \"a  \x7bx\x7d\" as \x7by\x7d ." ∧
          t.pattern = Phrase.ofText step.statement ∧ (t.captures? step.statement).isSome = true := by
  have hbody : IsBody noteBody.toList := by decide +kernel
  obtain ⟨r, hr⟩ := exists_ok_of_isOk (x := ofValue noteRegister "notes.yaml") (by decide +kernel)
  obtain ⟨s, hs⟩ := exists_ok_of_isOk (x := Spec.parse noteText none) (by decide +kernel)
  have hp := ofSpec_of_legible (legible_of_parse hs)
  obtain ⟨t, statement, ht, hkind, hstatement, hpattern, hmatch, hlines⟩ :=
    matches_copied_line .action hbody hr rfl rfl rfl rfl
  obtain ⟨scenario, hscenario, step, hstep, hline, rfl⟩ :=
    hlines noteText none s _ hs hp (("WHEN   " ++ noteBody).toList, 1) (by decide +kernel)
      (by decide +kernel) (by decide +kernel)
  refine ⟨hbody, r, t, s, _, hr, ht, hkind, hs, hp, scenario, hscenario, step, hstep, hline, ?_,
    hpattern, hmatch⟩
  rw [hstatement]
  decide +kernel

end Registry
end Acceptance

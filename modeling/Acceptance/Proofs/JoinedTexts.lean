import Acceptance.Proofs.Grammar
/-!
Texts put one behind the other. With an empty line between them, two texts that say specs make a text
that says the scenarios of both: no state of the reader passes the empty line, and only the line numbers
of the second text grow.
-/
namespace Acceptance

namespace Text

/-- Away from a carriage return with a line feed behind it, the first character alone decides. -/
theorem lines_cons {c : Char} {cs : List Char} (h : c = '\r' → cs.head? ≠ some '\n') :
    lines (c :: cs) = if isBreak c then [] :: lines cs else consLine c (lines cs) := by
  rw [lines]
  intro tail hreturn hfeed
  apply h hreturn
  rw [hfeed]
  rfl

theorem lines_feed (cs : List Char) : lines ('\n' :: cs) = [] :: lines cs :=
  lines_cons fun h => absurd h (by decide)

theorem lines_ne_nil (c : Char) (cs : List Char) : lines (c :: cs) ≠ [] := by
  intro hnil
  by_cases hpair : c = '\r' ∧ cs.head? = some '\n'
  · obtain ⟨rfl, hhead⟩ := hpair
    obtain ⟨rest, rfl⟩ := List.head?_eq_some_iff.1 hhead
    cases hnil
  · rw [lines_cons fun hreturn hhead => hpair ⟨hreturn, hhead⟩] at hnil
    split at hnil
    · cases hnil
    · cases hrest : lines cs <;> simp [hrest, consLine] at hnil

theorem consLine_append (c : Char) {ls : List (List Char)} (h : ls ≠ []) (ms : List (List Char)) :
    consLine c (ls ++ ms) = consLine c ls ++ ms := by
  cases ls with
  | nil => exact absurd rfl h
  | cons l ls => rfl

/-- A line feed ends a line, whatever stands behind it. -/
theorem lines_append_feed (cs ds : List Char) :
    lines (cs ++ '\n' :: ds) = lines (cs ++ ['\n']) ++ lines ds := by
  induction cs using List.twoStepInduction with
  | nil => simp [lines_feed, lines]
  | singleton c =>
    by_cases hreturn : c = '\r'
    · subst hreturn
      rfl
    · have hc (es : List Char) : lines (c :: '\n' :: es) = _ := lines_cons fun h => absurd h hreturn
      simp only [List.singleton_append, hc, lines_feed]
      split <;> simp [consLine, lines]
  | cons_cons c d cs hrest ih =>
    by_cases hpair : c = '\r' ∧ d = '\n'
    · obtain ⟨rfl, rfl⟩ := hpair
      exact congrArg ([] :: ·) hrest
    · have hc (es : List Char) : lines (c :: d :: es) = _ :=
        lines_cons fun hreturn hfeed => hpair ⟨hreturn, Option.some.inj hfeed⟩
      simp only [List.cons_append, hc] at ih ⊢
      rw [ih]
      split
      · rfl
      · exact consLine_append c (lines_ne_nil d _) _

/-- A line feed at the end closes a line that is open and completes a carriage return; behind another
break it makes an empty line. -/
theorem lines_append_last (cs : List Char) :
    lines (cs ++ ['\n']) = lines cs ∨ lines (cs ++ ['\n']) = lines cs ++ [[]] := by
  induction cs using List.twoStepInduction with
  | nil => exact .inr rfl
  | singleton c =>
    by_cases hreturn : c = '\r'
    · subst hreturn
      exact .inl rfl
    · have hc (es : List Char) : lines (c :: es) = _ := lines_cons fun h => absurd h hreturn
      simp only [List.singleton_append, hc, lines_feed]
      split
      · exact .inr rfl
      · exact .inl rfl
  | cons_cons c d cs hrest ih =>
    by_cases hpair : c = '\r' ∧ d = '\n'
    · obtain ⟨rfl, rfl⟩ := hpair
      exact hrest.imp (congrArg ([] :: ·)) (congrArg ([] :: ·))
    · have hc (es : List Char) : lines (c :: d :: es) = _ :=
        lines_cons fun hreturn hfeed => hpair ⟨hreturn, Option.some.inj hfeed⟩
      simp only [List.cons_append, hc]
      split
      · exact (ih d).imp (congrArg ([] :: ·)) (congrArg ([] :: ·))
      · refine (ih d).imp (congrArg (consLine c)) fun h => ?_
        rw [← List.cons_append, h, consLine_append c (lines_ne_nil d cs)]

end Text

namespace Spec

open Text

/-- The token `k` lines further down. -/
def Token.lower (k : Nat) (t : Token) : Token := ⟨t.line, t.number + k⟩

section Lower

variable {k : Nat} {ts : List Token}

theorem hasStep_lower : hasStep (ts.map (·.lower k)) = hasStep ts := List.any_map

theorem commentText_lower : commentText (ts.map (·.lower k)) = commentText ts := by
  simp [commentText, List.filterMap_map, Token.lower]

theorem firstLine_lower (h : ts ≠ []) : firstLine (ts.map (·.lower k)) = firstLine ts + k := by
  cases ts with
  | nil => exact absurd rfl h
  | cons t ts => rfl

theorem blocks_lower : blocks (ts.map (·.lower k)) = (blocks ts).map (List.map (·.lower k)) := by
  rw [blocks_eq_splitOnP, blocks_eq_splitOnP, splitOnP_map, List.filter_map]
  congr 2
  funext block
  simp

theorem readSteps_lower {previous : Option Kind} {steps : List (Step Nat)}
    (h : readSteps previous ts = .ok steps) :
    readSteps previous (ts.map (·.lower k)) = .ok (steps.map (·.map (· + k))) := by
  induction ts generalizing previous steps with
  | nil =>
    cases h
    rfl
  | cons t ts ih =>
    obtain ⟨line, n⟩ := t
    cases line with
    | step lead statement =>
      obtain ⟨kind, ps, rest, hkind, hps, hrest, rfl⟩ := readSteps_cons_eq_ok.1 h
      exact readSteps_cons_eq_ok.2 ⟨kind, ps, _, hkind, hps, ih hrest, rfl⟩
    | _ => exact ih h

/-- A scenario that stands further down is the same one with greater line numbers. -/
theorem readScenario_lower {s : Scenario String Nat} (hblock : hasStep ts = true)
    (h : readScenario ts = .ok s) :
    readScenario (ts.map (·.lower k)) = .ok (s.map id (· + k)) := by
  obtain ⟨steps, hsteps, hcomplete, rfl⟩ := readScenario_eq_ok.1 h
  have hne : ts ≠ [] := by
    rintro rfl
    cases hblock
  have hkinds : missingKind? (steps.map (·.map (· + k))) = none := by
    rw [missingKind?_eq_none] at hcomplete ⊢
    rwa [List.map_map]
  refine readScenario_eq_ok.2 ⟨_, readSteps_lower hsteps, hkinds, ?_⟩
  rw [List.takeWhile_map, firstLine_lower hne]
  exact congrArg (Scenario.mk · _ _) commentText_lower.symm

theorem mapM_readScenario_lower {bs : List (List Token)} {scenarios : List (Scenario String Nat)}
    (h : (bs.filter hasStep).mapM readScenario = .ok scenarios) :
    ((bs.map (List.map (·.lower k))).filter hasStep).mapM readScenario =
      .ok (scenarios.map (·.map id (· + k))) := by
  have hsame : hasStep ∘ List.map (·.lower k) = hasStep := funext fun _ => hasStep_lower
  rw [List.filter_map, hsame, mapM_eq_ok, List.forall₂_map_left_iff, List.forall₂_map_right_iff]
  apply (forall₂_mem (mapM_eq_ok.1 h)).imp
  intro block s hread
  exact readScenario_lower (List.mem_filter.1 hread.1).2 hread.2.2

end Lower

theorem descriptionOf_append {bs : List (List Token)} (h : bs ≠ []) (cs : List (List Token)) :
    descriptionOf (bs ++ cs) = descriptionOf bs := by
  cases bs with
  | nil => exact absurd rfl h
  | cons b bs => rfl

/-- The reader starts anew behind blank lines. -/
theorem blocks_append_blank {bs : List Token} (hblank : ∀ t ∈ bs, t.line.isBlank = true) (hne : bs ≠ [])
    (ts us : List Token) : blocks (ts ++ (bs ++ us)) = blocks ts ++ blocks us := by
  induction bs generalizing ts with
  | nil => exact absurd rfl hne
  | cons t bs ih =>
    obtain ⟨ht, hbs⟩ := List.forall_mem_cons.1 hblank
    rw [List.cons_append, blocks_eq_splitOnP, List.splitOnP_append_cons ts _ ht, List.filter_append,
      ← blocks_eq_splitOnP, ← blocks_eq_splitOnP]
    cases bs with
    | nil => rfl
    | cons u bs => exact congrArg (blocks ts ++ ·) (ih hbs (by simp) [])

/-! Tokens of lines. -/

theorem tokensFrom_append {n : Nat} {ls ms : List (List Char)} {ts us : List Token}
    (hts : tokensFrom n ls = .ok ts) (hus : tokensFrom (n + ls.length) ms = .ok us) :
    tokensFrom n (ls ++ ms) = .ok (ts ++ us) := by
  rw [tokensFrom_eq_ok] at hts hus ⊢
  obtain ⟨hls, rfl⟩ := hts
  obtain ⟨hms, rfl⟩ := hus
  rw [List.map_append, List.zipIdx_append, List.map_append, List.length_map]
  exact ⟨List.forall_mem_append.2 ⟨hls, hms⟩, rfl⟩

theorem tokensFrom_lower {n k : Nat} {ls : List (List Char)} {ts : List Token}
    (h : tokensFrom n ls = .ok ts) : tokensFrom (n + k) ls = .ok (ts.map (·.lower k)) := by
  rw [tokensFrom_eq_ok] at h ⊢
  obtain ⟨hls, rfl⟩ := h
  refine ⟨hls, ?_⟩
  rw [Nat.add_comm n, ← List.map_snd_add_zipIdx_eq_zipIdx, List.map_map, List.map_map]
  rfl

theorem exists_tokensFrom_blank (n m : Nat) : ∃ bs, tokensFrom n (List.replicate m []) = .ok bs ∧
    bs.length = m ∧ ∀ t ∈ bs, t.line.isBlank = true := by
  induction m generalizing n with
  | zero => exact ⟨[], rfl, rfl, by simp⟩
  | succ m ih =>
    obtain ⟨bs, hbs, hlength, hblank⟩ := ih (n + 1)
    refine ⟨⟨.blank, n⟩ :: bs, ?_, by simp [hlength], List.forall_mem_cons.2 ⟨rfl, hblank⟩⟩
    exact bind_eq_ok.2 ⟨bs, hbs, rfl⟩

/-- The number of lines of a text. -/
def lineCount (text : String) : Nat := (lines text.toList).length

/-- The tokens of two texts with an empty line between them. -/
theorem exists_tokens_joined {a b : String} {ts us : List Token} (ha : tokens a = .ok ts)
    (hb : tokens b = .ok us) : ∃ bs, (∀ t ∈ bs, t.line.isBlank = true) ∧ bs ≠ [] ∧
      tokens (a ++ "\n\n" ++ b) = .ok (ts ++ (bs ++ us.map (·.lower (lineCount (a ++ "\n\n"))))) := by
  obtain ⟨m, hm⟩ : ∃ m, lines (a ++ "\n\n").toList = lines a.toList ++ List.replicate (m + 1) [] := by
    have htwo : (a ++ "\n\n").toList = a.toList ++ '\n' :: ['\n'] := String.toList_append
    rw [htwo, lines_append_feed]
    rcases lines_append_last a.toList with hnone | hone
    · exact ⟨0, by rw [hnone]; rfl⟩
    · exact ⟨1, by rw [hone, List.append_assoc]; rfl⟩
  have hall : lines (a ++ "\n\n" ++ b).toList = lines (a ++ "\n\n").toList ++ lines b.toList := by
    have hfirst : (a ++ "\n\n").toList = (a.toList ++ ['\n']) ++ ['\n'] := by simp
    rw [String.toList_append, hfirst, List.append_assoc _ ['\n']]
    exact lines_append_feed _ _
  obtain ⟨bs, hbs, hlength, hblank⟩ := exists_tokensFrom_blank (1 + (lines a.toList).length) (m + 1)
  have hne : bs ≠ [] := List.ne_nil_of_length_eq_add_one hlength
  refine ⟨bs, hblank, hne, ?_⟩
  have hbehind : tokensFrom (1 + lineCount (a ++ "\n\n")) (lines b.toList) = .ok _ := tokensFrom_lower hb
  rw [tokens, hall, ← List.append_assoc]
  refine tokensFrom_append ?_ hbehind
  rw [hm]
  exact tokensFrom_append ha hbs

/-- Blocks are read one by one. Two texts that say specs, with an empty line between them, say the
scenarios of the first and then those of the second, which stand as many lines lower as there are lines
before them. A first block of comments in the second text describes nothing. -/
theorem parse_joined {a b : String} {source source' : Option String} {s t : Spec}
    (ha : parse a source = .ok s) (hb : parse b source' = .ok t) (name : Option String) :
    parse (a ++ "\n\n" ++ b) name = .ok ⟨sourceName name, s.description,
      s.scenarios ++ t.scenarios.map (·.map id (· + lineCount (a ++ "\n\n")))⟩ := by
  obtain ⟨hbodies, scenarios, hscenarios, hne, rfl⟩ := parse_eq_ok.1 ha
  obtain ⟨hbodies', scenarios', hscenarios', -, rfl⟩ := parse_eq_ok.1 hb
  obtain ⟨bs, hblank, hsome, htokens⟩ :=
    exists_tokens_joined (tokens_eq_ok.2 ⟨hbodies, rfl⟩) (tokens_eq_ok.2 ⟨hbodies', rfl⟩)
  obtain ⟨hall, htokens⟩ := tokens_eq_ok.1 htokens
  have hblocks := blocks_append_blank hblank hsome ((trimmedLines a).map tokenOf)
    (((trimmedLines b).map tokenOf).map (·.lower (lineCount (a ++ "\n\n"))))
  rw [htokens, blocks_lower] at hblocks
  refine parse_eq_ok.2 ⟨hall, scenarios ++ scenarios'.map (·.map id (· + lineCount (a ++ "\n\n"))), ?_,
    List.append_ne_nil_of_left_ne_nil hne _, ?_⟩
  · rw [hblocks, List.filter_append, mapM_eq_ok]
    exact List.rel_append (mapM_eq_ok.1 hscenarios) (mapM_eq_ok.1 (mapM_readScenario_lower hscenarios'))
  · -- the first text has a scenario, so its first block is also that of the whole
    have hfirst : blocks ((trimmedLines a).map tokenOf) ≠ [] := by
      intro hnil
      rw [hnil] at hscenarios
      exact hne (Except.ok.inj hscenarios).symm
    rw [hblocks, descriptionOf_append hfirst]

/-- A text that ends in a carriage return, which the first line feed behind it completes. -/
def openText : String := "; kept\n\nWHEN a.\nTHEN b.\r"

def openSpec : Spec :=
  ⟨"open.gwt", "kept", [⟨"", [⟨.action, "a", [], 3⟩, ⟨.outcome, "b", [], 4⟩], 3⟩]⟩

/-- A text with comments before its scenario, and an outcome without a keyword at its end. -/
def notedText : String := "; skipped\n\n; titled\nWHEN c 2.\nTHEN d.\ne."

def notedSpec : Spec :=
  ⟨"<string>", "skipped", [⟨"titled",
    [⟨.action, "c 2", [⟨"c", .int 2⟩], 4⟩, ⟨.outcome, "d", [], 5⟩, ⟨.outcome, "e", [], 6⟩], 3⟩]⟩

theorem parse_joined_openText : parse openText (some "open.gwt") = .ok openSpec ∧
    parse notedText none = .ok notedSpec ∧ lineCount (openText ++ "\n\n") = 5 ∧
    parse (openText ++ "\n\n" ++ notedText) none = .ok ⟨"<string>", "kept", openSpec.scenarios ++ [⟨"titled",
      [⟨.action, "c 2", [⟨"c", .int 2⟩], 9⟩, ⟨.outcome, "d", [], 10⟩, ⟨.outcome, "e", [], 11⟩], 8⟩]⟩ := by
  have ha : parse openText (some "open.gwt") = .ok openSpec := eq_ok_of_toOption (by decide +kernel)
  have hb : parse notedText none = .ok notedSpec := eq_ok_of_toOption (by decide +kernel)
  have hcount : lineCount (openText ++ "\n\n") = 5 := by decide +kernel
  have hjoined := parse_joined ha hb none
  rw [hcount] at hjoined
  exact ⟨ha, hb, hcount, hjoined⟩

end Spec
end Acceptance

import Mathlib.Data.List.Forall2
import Acceptance.Proofs.Legible
/-!
Step lines, said without the reader: what a line must look like to be a step, and how the lines of a
text fall into runs. The tokens and blocks of a text are read off from this.
-/
variable {cs : List Char}

namespace Acceptance.Text

theorem trim_eq_nil : trim cs = [] ↔ ∀ c ∈ cs, isBlank c = true := by
  constructor
  · intro h c hc
    rw [trim, trimEnd_eq_rdropWhile, List.rdropWhile_eq_nil_iff] at h
    have hsplit : c ∈ cs.takeWhile isBlank ++ cs.dropWhile isBlank := by
      rwa [List.takeWhile_append_dropWhile]
    rcases List.mem_append.1 hsplit with hc | hc
    · exact List.mem_takeWhile_imp hc
    · exact h c hc
  · intro h
    have hnil : trimStart cs = [] := List.dropWhile_eq_nil_iff.2 h
    rw [trim, hnil]
    rfl

theorem count_trimStart {c : Char} (hc : isBlank c = false) (cs : List Char) :
    (trimStart cs).count c = cs.count c := by
  have hno : (cs.takeWhile isBlank).count c = 0 := by
    rw [List.count_eq_zero]
    intro hmem
    rw [List.mem_takeWhile_imp hmem] at hc
    cases hc
  calc (trimStart cs).count c
      = (cs.takeWhile isBlank ++ cs.dropWhile isBlank).count c := by
        rw [List.count_append, hno, Nat.zero_add]
        rfl
    _ = cs.count c := by rw [List.takeWhile_append_dropWhile]

/-- Trimming does not reach past a character at the end that is not blank. -/
theorem trim_append_singleton {c : Char} (hc : isBlank c = false) (cs : List Char) :
    trim (cs ++ [c]) = trimStart cs ++ [c] := by
  have hstart : trimStart (cs ++ [c]) = trimStart cs ++ [c] := by
    unfold trimStart
    rw [List.dropWhile_append]
    split
    · next hnil => simp [List.isEmpty_iff.1 hnil, hc]
    · rfl
  rw [trim, hstart, trimEnd_append_singleton hc]

theorem trimEnd_of_isSuffix {ds : List Char} (h : trimEnd ds = ds) (hs : cs <:+ ds) :
    trimEnd cs = cs := by
  obtain ⟨bs, rfl⟩ := hs
  rw [trimEnd_eq_rdropWhile, List.rdropWhile_eq_self_iff] at h ⊢
  intro hne
  rw [← List.getLast_append_of_ne_nil (by simp [hne]) hne]
  exact h (by simp [hne])

end Acceptance.Text

namespace Acceptance.Spec

open Text

/-- The word of a lead, with the space behind it. -/
def Lead.word : Lead → List Char
  | .keyword k => k.keyword.toList ++ [' ']
  | .again => "AND ".toList
  | .bare => []

/-- The lead that a line starts with. -/
def leadOf (line : List Char) : Lead :=
  if "GIVEN ".toList.isPrefixOf line then .keyword .context
  else if "WHEN ".toList.isPrefixOf line then .keyword .action
  else if "THEN ".toList.isPrefixOf line then .keyword .outcome
  else if "AND ".toList.isPrefixOf line then .again
  else .bare

/-- What a line says behind its lead. -/
def bodyOf (line : List Char) : List Char := line.drop (leadOf line).word.length

/-- The quotes are closed, and a period ends words. -/
structure IsBody (body : List Char) : Prop where
  quotes : body.count '"' % 2 = 0
  period : body.getLast? = some '.'
  words : ∃ c ∈ body.dropLast, isBlank c = false

instance : DecidablePred IsBody := fun body =>
  decidable_of_iff (body.count '"' % 2 = 0 ∧ body.getLast? = some '.' ∧
      (body.dropLast.any fun c => !isBlank c) = true)
    ⟨fun h => ⟨h.1, h.2.1, by simpa using h.2.2⟩, fun h => ⟨h.quotes, h.period, by simpa using h.words⟩⟩

def statementOf (line : List Char) : List Char := trim (bodyOf line).dropLast

def isStepLine (line : List Char) : Bool := line ≠ [] && line.head? ≠ some ';'

/-- The lines of a text without the blanks around them, each with its number. -/
def trimmedLines (text : String) : List (List Char × Nat) :=
  ((lines text.toList).map trim).zipIdx 1

/-- The step lines of each maximal run of lines that are not blank, where there are any. -/
def stepRuns (text : String) : List (List (List Char × Nat)) :=
  (((trimmedLines text).splitOnP (·.1.isEmpty)).map (·.filter (isStepLine ·.1))).filter
    (!·.isEmpty)

variable {line : List Char} {ts : List Token}

theorem splitLead_eq (h : Trimmed line) : splitLead line = (leadOf line, trim (bodyOf line)) := by
  simp only [splitLead, leads, List.find?_cons, bodyOf, leadOf]
  cases "GIVEN ".toList.isPrefixOf line
  · cases "WHEN ".toList.isPrefixOf line
    · cases "THEN ".toList.isPrefixOf line
      · cases "AND ".toList.isPrefixOf line
        · simp [Lead.word, h.trim]
        · rfl
      · rfl
    · rfl
  · rfl

/-- A statement is read just where the body is one. -/
theorem readStatement_trim {body statement : List Char} (hend : trimEnd body = body) :
    readStatement (trim body) = .ok statement ↔ IsBody body ∧ statement = trim body.dropLast := by
  by_cases hdot : body.getLast? = some '.'
  · obtain ⟨b, rfl⟩ : ∃ b, body = b ++ ['.'] :=
      ⟨body.dropLast, (List.dropLast_append_getLast? '.' (by simpa using hdot)).symm⟩
    have hquotes : (trimStart b ++ ['.']).count '"' = (b ++ ['.']).count '"' := by
      rw [List.count_append, List.count_append, count_trimStart (by decide)]
    have hwords : (∃ c ∈ b, isBlank c = false) ↔ trim b ≠ [] := by
      rw [ne_eq, trim_eq_nil]
      simp
    rw [trim_append_singleton (by decide), readStatement, hquotes]
    simp only [List.getLast?_concat, List.dropLast_concat, ne_eq, not_true_eq_false, if_false]
    change (if _ then _ else if trim b = [] then _ else Except.ok (trim b)) = _ ↔ _
    constructor
    · intro h
      split at h
      · cases h
      · next hodd =>
        split at h
        · cases h
        · next hne =>
          cases h
          refine ⟨⟨by omega, hdot, ?_⟩, rfl⟩
          rw [List.dropLast_concat]
          exact hwords.2 hne
    · rintro ⟨hbody, rfl⟩
      have heven := hbody.quotes
      have hne := hbody.words
      rw [List.dropLast_concat, hwords] at hne
      rw [if_neg (by omega), if_neg hne]
  · constructor
    · intro h
      exfalso
      simp only [readStatement] at h
      split at h
      · cases h
      · split at h
        · cases h
        · next hlast =>
          -- The trimmed body ends the body, so both have the same last character.
          have hsuffix : trimStart body <:+ body := List.dropWhile_suffix isBlank
          rw [trim, trimEnd_of_isSuffix hend hsuffix, ne_eq, not_not] at hlast
          obtain ⟨bs, hbs⟩ := hsuffix
          rw [← hbs, List.getLast?_append, hlast] at hdot
          exact hdot rfl
    · exact fun h => absurd h.1.period hdot

/-- The line that a line without blanks around it is read as. -/
def lineOf : List Char → Line
  | [] => .blank
  | ';' :: rest =>
    if occurs "===".toList rest then .bar (String.ofList (';' :: rest))
    else .comment (String.ofList (trim rest))
  | line => .step (leadOf line) (String.ofList (statementOf line))

theorem lineOf_of_isStepLine (h : isStepLine line = true) :
    lineOf line = .step (leadOf line) (String.ofList (statementOf line)) := by
  unfold lineOf
  split
  · simp [isStepLine] at h
  · simp [isStepLine] at h
  · rfl

theorem isBlank_lineOf (line : List Char) : (lineOf line).isBlank = line.isEmpty := by
  unfold lineOf
  split
  · rfl
  · split <;> rfl
  · next hne _ =>
    cases line with
    | nil => exact absurd rfl hne
    | cons c cs => rfl

theorem isStep_lineOf (line : List Char) : (lineOf line).isStep = isStepLine line := by
  unfold lineOf
  split
  · rfl
  · split <;> simp [Line.isStep, isStepLine]
  · next hne hcomment =>
    cases line with
    | nil => exact absurd rfl hne
    | cons c cs =>
      have hc : c ≠ ';' := fun h => hcomment cs (by rw [h])
      simp [Line.isStep, isStepLine, hc]

theorem readLine_eq_ok {line : Line} : readLine cs = .ok line ↔
      (isStepLine (trim cs) = true → IsBody (bodyOf (trim cs))) ∧ line = lineOf (trim cs) := by
  have htrimmed := trimmed_trim cs
  unfold readLine lineOf
  split
  · next hnil => simp [hnil, isStepLine, eq_comm (a := line)]
  · next rest hcomment =>
    have hno : isStepLine (';' :: rest) = false := by simp [isStepLine]
    rw [hcomment]
    simp only [hno, Bool.false_eq_true, false_implies, true_and]
    rw [← apply_ite Except.ok, Except.ok.injEq]
    exact eq_comm
  · next hne hcomment =>
    have hstep : isStepLine (trim cs) = true := by
      cases htrim : trim cs with
      | nil => exact absurd htrim hne
      | cons c rest =>
        have hc : c ≠ ';' := fun h => hcomment rest (by rw [htrim, h])
        simp [isStepLine, hc]
    have hend : trimEnd (bodyOf (trim cs)) = bodyOf (trim cs) :=
      trimEnd_of_isSuffix htrimmed.stop (List.drop_suffix _ _)
    rw [splitLead_eq htrimmed]
    simp only [hstep, forall_const]
    constructor
    · intro h
      obtain ⟨statement, hread, rfl⟩ : ∃ st, readStatement (trim (bodyOf (trim cs))) = .ok st ∧
          .step (leadOf (trim cs)) (String.ofList st) = line := by
        cases hread : readStatement (trim (bodyOf (trim cs))) with
        | error e =>
          rw [hread] at h
          cases h
        | ok st =>
          rw [hread] at h
          cases h
          exact ⟨st, rfl, rfl⟩
      obtain ⟨hbody, rfl⟩ := (readStatement_trim hend).1 hread
      exact ⟨hbody, rfl⟩
    · rintro ⟨hbody, rfl⟩
      rw [(readStatement_trim hend).2 ⟨hbody, rfl⟩]
      rfl

def tokenOf (l : List Char × Nat) : Token := ⟨lineOf l.1, l.2⟩

theorem tokensFrom_eq_ok {n : Nat} {ls : List (List Char)} : tokensFrom n ls = .ok ts ↔
      (∀ l ∈ ls.map trim, isStepLine l = true → IsBody (bodyOf l)) ∧
        ts = ((ls.map trim).zipIdx n).map tokenOf := by
  induction ls generalizing n ts with
  | nil =>
    simp only [tokensFrom, Except.ok.injEq, List.map_nil, List.not_mem_nil, false_implies,
      implies_true, List.zipIdx_nil, true_and]
    exact eq_comm
  | cons l ls ih =>
    simp only [List.map_cons, List.zipIdx_cons, List.forall_mem_cons]
    constructor
    · intro h
      rw [tokensFrom] at h
      split at h
      · cases h
      · next line hread =>
        obtain ⟨rest, hrest, h⟩ := bind_eq_ok.1 h
        cases h
        obtain ⟨hbody, rfl⟩ := readLine_eq_ok.1 hread
        obtain ⟨hbodies, rfl⟩ := ih.1 hrest
        exact ⟨⟨hbody, hbodies⟩, rfl⟩
    · rintro ⟨⟨hbody, hbodies⟩, rfl⟩
      rw [tokensFrom, readLine_eq_ok.2 ⟨hbody, rfl⟩]
      exact bind_eq_ok.2 ⟨_, ih.2 ⟨hbodies, rfl⟩, rfl⟩

theorem tokens_eq_ok {text : String} : tokens text = .ok ts ↔
      (∀ l ∈ trimmedLines text, isStepLine l.1 = true → IsBody (bodyOf l.1)) ∧
        ts = (trimmedLines text).map tokenOf := by
  rw [tokens, tokensFrom_eq_ok]
  refine and_congr_left fun _ => ?_
  constructor
  · exact fun h l hl => h l.1 (List.fst_mem_of_mem_zipIdx hl)
  · intro h line hline
    rw [← List.zipIdx_map_fst 1 ((lines text.toList).map trim)] at hline
    obtain ⟨l, hl, rfl⟩ := List.mem_map.1 hline
    exact h l hl

section Split

variable {α β : Type}

theorem splitOnP_map (p : β → Bool) (f : α → β) (xs : List α) :
    (xs.map f).splitOnP p = (xs.splitOnP (p ∘ f)).map (List.map f) := by
  induction xs with
  | nil => rfl
  | cons x xs ih =>
    rw [List.map_cons, List.splitOnP_cons_eq_if_modifyHead, List.splitOnP_cons_eq_if_modifyHead, ih]
    cases hx : p (f x) with
    | true => simp [hx]
    | false =>
      cases hs : xs.splitOnP (p ∘ f) with
      | nil => exact absurd hs (List.splitOnP_ne_nil _ _)
      | cons y ys => simp [hx]

/-- Splitting leaves out the separators and nothing else. -/
theorem flatten_splitOnP (p : α → Bool) (xs : List α) :
    (xs.splitOnP p).flatten = xs.filter (!p ·) := by
  induction xs with
  | nil => rfl
  | cons x xs ih =>
    rw [List.splitOnP_cons_eq_if_modifyHead]
    cases hx : p x with
    | true => simp [hx, ih]
    | false =>
      cases hs : xs.splitOnP p with
      | nil => exact absurd hs (List.splitOnP_ne_nil _ _)
      | cons y ys =>
        rw [hs] at ih
        simp [hx, ← ih]

end Split

/-- The runs have all step lines of the text, in their order. -/
theorem flatten_stepRuns (text : String) :
    (stepRuns text).flatten = (trimmedLines text).filter (isStepLine ·.1) := by
  rw [stepRuns, List.flatten_filter_not_isEmpty, ← List.filter_flatten, flatten_splitOnP,
    List.filter_filter]
  apply List.filter_congr
  intro l _
  cases h : l.1 <;> simp [isStepLine]

theorem blocks_eq_splitOnP (ts : List Token) :
    blocks ts = (ts.splitOnP (·.line.isBlank)).filter (!·.isEmpty) := by
  fun_induction blocks ts with
  | case1 => rfl
  | case2 t ts hblank ih => simp [List.splitOnP_cons_eq_if_modifyHead, hblank, ih]
  | case3 t hblank => simp [List.splitOnP_cons_eq_if_modifyHead, hblank]
  | case4 t hblank u ts hu ih =>
    rw [ih]
    simp [List.splitOnP_cons_eq_if_modifyHead, hblank, hu]
  | case5 t hblank u ts hu hnil ih =>
    rw [List.splitOnP_cons_eq_if_modifyHead, if_neg hu] at ih
    cases hs : ts.splitOnP (·.line.isBlank) with
    | nil => exact absurd hs (List.splitOnP_ne_nil _ _)
    | cons y ys => simp [hs, hnil] at ih
  | case6 t hblank u ts hu b bs hcons ih =>
    rw [List.splitOnP_cons_eq_if_modifyHead, if_neg hblank]
    rw [hcons, List.splitOnP_cons_eq_if_modifyHead, if_neg hu] at ih
    cases hs : ts.splitOnP (·.line.isBlank) with
    | nil => exact absurd hs (List.splitOnP_ne_nil _ _)
    | cons y ys =>
      simp only [hs, List.modifyHead_cons, List.isEmpty_cons, Bool.not_false,
        List.filter_cons_of_pos, List.cons.injEq] at ih
      simp [List.splitOnP_cons_eq_if_modifyHead, hu, hs, hcons, ih]

/-- The step tokens of the blocks are those of the runs. -/
theorem blocks_map_filter (text : String) :
    ((blocks ((trimmedLines text).map tokenOf)).filter hasStep).map (·.filter (·.line.isStep)) =
      (stepRuns text).map (List.map tokenOf) := by
  have hblank : ((fun t : Token => t.line.isBlank) ∘ tokenOf) = fun l => l.1.isEmpty := by
    funext l
    exact isBlank_lineOf l.1
  have hstep : ((fun t : Token => t.line.isStep) ∘ tokenOf) = fun l => isStepLine l.1 := by
    funext l
    exact isStep_lineOf l.1
  rw [blocks_eq_splitOnP, splitOnP_map, hblank, stepRuns]
  simp only [List.filter_map, List.filter_filter, List.map_map]
  have hfilter : (List.filter (fun t : Token => t.line.isStep) ∘ List.map tokenOf) =
      List.map tokenOf ∘ List.filter fun l : List Char × Nat => isStepLine l.1 := by
    funext run
    simp only [Function.comp_apply, List.filter_map, hstep]
  rw [hfilter]
  congr 1
  apply List.filter_congr
  intro run _
  have hany : hasStep (run.map tokenOf) = run.any fun l => isStepLine l.1 := by
    rw [hasStep, List.any_map, hstep]
  simp only [Function.comp_apply, hany, List.isEmpty_map]
  rw [Bool.eq_iff_iff]
  cases run with
  | nil => simp
  | cons l ls => cases hl : isStepLine l.1 <;> simp [hl, List.filter_eq_nil_iff]

end Acceptance.Spec

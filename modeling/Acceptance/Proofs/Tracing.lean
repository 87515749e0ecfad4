import Acceptance.Proofs.PlacedTests
import Acceptance.Proofs.Slugs
import Acceptance.Report.Junit
/-!
Failures are traced to their statements. The span of a step in a manifest points at the two lines of
the step, spans of a module come one after the other, and the last line number that a message gives
for the module finds the step that it lies in.
-/
namespace Acceptance

open Text

variable {digits after mark cs : List Char} {statement : String}

/-! Line numbers in a message. -/

/-- The last place where the text has the mark with a digit behind it has just these digits. -/
def LastNumber (mark digits cs : List Char) : Prop :=
  ∃ before after, cs = before ++ (mark ++ (digits ++ after)) ∧ digits ≠ [] ∧
    (∀ d ∈ digits, isDigit d = true) ∧ (∀ c ∈ after.head?, isDigit c = false) ∧
      ∀ b c e, cs = b ++ (mark ++ c :: e) → isDigit c = true → b.length ≤ before.length

theorem takeNumber?_append (mark : List Char) (hne : digits ≠ [])
    (hdigits : ∀ d ∈ digits, isDigit d = true) (hafter : ∀ c ∈ after.head?, isDigit c = false) :
    takeNumber? mark (mark ++ (digits ++ after)) = some (digits, after) := by
  obtain ⟨htake, hdrop⟩ := span_append hdigits hafter
  have hbehind : Xml.after? mark (mark ++ (digits ++ after)) = some (digits ++ after) := by
    simp [Xml.after?]
  unfold takeNumber?
  rw [hbehind]
  change (if (digits ++ after).takeWhile isDigit = [] then none
    else some ((digits ++ after).takeWhile isDigit, (digits ++ after).dropWhile isDigit)) = _
  rw [htake, hdrop, if_neg hne]

theorem of_takeNumber? (h : takeNumber? mark cs = some (digits, after)) :
    cs = mark ++ (digits ++ after) ∧ digits ≠ [] ∧ ∀ d ∈ digits, isDigit d = true := by
  obtain ⟨behind, hbehind, h⟩ := Option.bind_eq_some_iff.1 h
  have hcs : cs = mark ++ behind := by
    unfold Xml.after? at hbehind
    split at hbehind
    · next hprefix =>
      obtain ⟨rest, rfl⟩ := List.isPrefixOf_iff_prefix.1 hprefix
      cases hbehind
      rw [List.drop_left]
    · cases hbehind
  dsimp only at h
  split at h
  · cases h
  · next hne =>
    cases h
    refine ⟨?_, hne, fun d hd => List.mem_takeWhile_imp hd⟩
    rw [hcs, List.takeWhile_append_dropWhile]

theorem numbersAfter_of_take (h : takeNumber? mark cs = some (digits, after)) :
    numbersAfter mark cs = digits :: numbersAfter mark after := by
  obtain ⟨hcs, hne, -⟩ := of_takeNumber? h
  have hlength : digits.length ≠ 0 := by simpa using hne
  cases cs with
  | nil =>
    have hsize := congrArg List.length hcs
    simp only [List.length_nil, List.length_append] at hsize
    omega
  | cons c cs =>
    have hsize := congrArg List.length hcs
    simp only [List.length_cons, List.length_append] at hsize
    rw [numbersAfter, h]
    exact if_pos (by omega)

theorem numbersAfter_of_none {c : Char} (h : takeNumber? mark (c :: cs) = none) :
    numbersAfter mark (c :: cs) = numbersAfter mark cs := by
  rw [numbersAfter, h]

theorem numbersAfter_eq_nil (h : ∀ b c e, cs = b ++ (mark ++ c :: e) → isDigit c = false) :
    numbersAfter mark cs = [] := by
  induction cs with
  | nil => rw [numbersAfter]
  | cons d cs ih =>
    have hnone : takeNumber? mark (d :: cs) = none := by
      rw [Option.eq_none_iff_forall_ne_some]
      rintro ⟨digits, after⟩ htake
      obtain ⟨hcs, hne, hdigits⟩ := of_takeNumber? htake
      obtain ⟨c, digits, rfl⟩ := List.exists_cons_of_ne_nil hne
      have hnot := h [] c (digits ++ after) hcs
      exact absurd (hdigits c List.mem_cons_self) (by simp [hnot])
    rw [numbersAfter_of_none hnone]
    exact ih fun b c e hcs => h (d :: b) c e (by rw [hcs]; rfl)

/-- Where the mark stands twice, with digits behind the first place, the second comes after them. -/
def NoOverlap (mark : List Char) : Prop :=
  ∀ ds rest before behind, (∀ d ∈ ds, isDigit d = true) → before ≠ [] →
    mark ++ (ds ++ rest) = before ++ (mark ++ behind) →
      ∃ more, before = mark ++ (ds ++ more) ∧ rest = more ++ (mark ++ behind)

/-- A mark does not overlap itself if only its end is a colon, and no digit can be its start. -/
theorem noOverlap_of_colon {name : List Char} {c : Char} (hcolon : ':' ∉ c :: name)
    (hc : isDigit c = false) : NoOverlap (c :: name ++ [':']) := by
  intro ds rest before behind hds hbefore h
  have hnot : c ∉ ds := fun hmem => absurd (hds c hmem) (by simp [hc])
  rw [← List.append_assoc] at h
  rcases List.append_eq_append_iff.1 h with ⟨more, rfl, hrest⟩ | ⟨x, hx, hlater⟩
  · exact ⟨more, by rw [List.append_assoc], hrest⟩
  · cases x with
    | nil => exact ⟨[], by simpa using hx.symm, by simpa using hlater.symm⟩
    | cons e x =>
      exfalso
      obtain rfl : c = e := (List.cons.inj hlater).1
      rcases List.append_eq_append_iff.1 hx with ⟨y, -, hy⟩ | ⟨y, hmark, hy⟩
      · exact hnot (hy ▸ by simp)
      · rcases List.eq_nil_or_concat y with rfl | ⟨y, d, rfl⟩
        · exact hnot (by rw [← List.nil_append ds, ← hy]; exact List.mem_cons_self)
        · -- the second place starts inside the first mark, and would have a colon in its midst
          rw [List.concat_eq_append, ← List.append_assoc] at hmark
          obtain ⟨hname, hd⟩ := List.append_inj' hmark rfl
          obtain rfl : ':' = d := (List.cons.inj hd).1
          rw [hy, List.concat_eq_append] at hlater
          have hsame : (c :: name) ++ ':' :: behind = y ++ ':' :: (ds ++ rest) := by
            simpa using hlater
          have hcolon' : ':' ∉ y := fun hmem => hcolon (hname ▸ List.mem_append_right _ hmem)
          obtain ⟨hy', -⟩ := append_cons_inj hcolon hcolon' hsame
          rw [hy'] at hname
          exact hbefore (List.self_eq_append_left.1 hname)

theorem getLast?_numbersAfter (hmark : mark ≠ []) (hapart : NoOverlap mark)
    (h : LastNumber mark digits cs) : (numbersAfter mark cs).getLast? = some digits := by
  obtain ⟨before, after, rfl, hne, hdigits, hafter, hlast⟩ := h
  have hlength : mark.length ≠ 0 := by simpa using hmark
  -- the induction is on what stands before the last place, of which each step takes something away
  induction hn : before.length using Nat.strong_induction_on generalizing before with
  | _ n ih =>
    subst hn
    by_cases hbefore : before = []
    · subst hbefore
      have hnone : numbersAfter mark after = [] := by
        refine numbersAfter_eq_nil fun b d e hafter => ?_
        by_contra hd
        have hle := hlast (mark ++ (digits ++ b)) d e (by simp [hafter]) (by simpa using hd)
        simp only [List.length_append, List.length_nil] at hle
        omega
      rw [List.nil_append, numbersAfter_of_take (takeNumber?_append mark hne hdigits hafter), hnone]
      rfl
    · cases htake : takeNumber? mark (before ++ (mark ++ (digits ++ after))) with
      | none =>
        obtain ⟨d, before, rfl⟩ := List.exists_cons_of_ne_nil hbefore
        refine (congrArg _ (numbersAfter_of_none htake)).trans ?_
        refine ih _ (Nat.lt_succ_self _) before (fun b e f hcs hd => ?_) rfl
        have hle := hlast (d :: b) e f (by rw [List.cons_append, hcs]; rfl) hd
        exact Nat.le_of_succ_le_succ hle
      | some taken =>
        obtain ⟨ds, rest⟩ := taken
        obtain ⟨hcs, -, hds⟩ := of_takeNumber? htake
        obtain ⟨more, hmore, hrest⟩ := hapart _ _ _ _ hds hbefore hcs.symm
        have hlen : before.length = mark.length + (ds.length + more.length) := by
          rw [hmore, List.length_append, List.length_append]
        have hlater := ih more.length (by omega) more (fun b e f hcs' hd => ?_) rfl
        · rw [numbersAfter_of_take htake, List.getLast?_cons, hrest, hlater]
          rfl
        · have hle := hlast (mark ++ (ds ++ b)) e f (by rw [hcs, hrest, hcs']; simp) hd
          simp only [List.length_append] at hle
          omega

/-- A number is the last one where too little is behind it for the mark to stand there again. -/
theorem lastNumber_append (hapart : NoOverlap mark) (before : List Char) (hne : digits ≠ [])
    (hdigits : ∀ d ∈ digits, isDigit d = true) (hafter : ∀ c ∈ after.head?, isDigit c = false)
    (hshort : after.length < mark.length) :
    LastNumber mark digits (before ++ (mark ++ (digits ++ after))) := by
  refine ⟨before, after, rfl, hne, hdigits, hafter, fun b c e hcs _ => ?_⟩
  by_contra hlong
  obtain ⟨more, rfl, hrest⟩ | ⟨more, rfl, -⟩ := List.append_eq_append_iff.1 hcs
  · have hmore : more ≠ [] := by
      rintro rfl
      simp at hlong
    obtain ⟨gap, -, hgap⟩ := hapart _ _ _ _ hdigits hmore hrest
    rw [hgap] at hshort
    simp only [List.length_append] at hshort
    omega
  · simp at hlong

namespace Emission

open Plan

/-! The spans of steps. -/

theorem getElem?_spansFrom (n : Nat) (steps : List StoredStep) (i : Nat) :
    (spansFrom n steps)[i]? =
      steps[i]?.map fun s => ⟨s.kind, s.statement, s.line, n + 2 * i, n + 2 * i + 1⟩ := by
  induction steps generalizing n i with
  | nil => rfl
  | cons s steps ih =>
    cases i with
    | zero => rfl
    | succ i =>
      rw [spansFrom, List.getElem?_cons_succ, List.getElem?_cons_succ, ih]
      congr 2
      funext t
      congr 1 <;> omega

theorem length_spansFrom (n : Nat) (steps : List StoredStep) :
    (spansFrom n steps).length = steps.length := by
  induction steps generalizing n with
  | nil => rfl
  | cons s steps ih => exact congrArg Nat.succ (ih (n + 2))

/-- Spans start from `n` on, and each ends before the next one starts. -/
theorem pairwise_spansFrom (n : Nat) (steps : List StoredStep) :
    (∀ span ∈ spansFrom n steps, n ≤ span.first ∧ span.last < n + 2 * steps.length) ∧
      (spansFrom n steps).Pairwise fun a b => a.last < b.first := by
  induction steps generalizing n with
  | nil => exact ⟨List.forall_mem_nil _, .nil⟩
  | cons s steps ih =>
    obtain ⟨hbounds, hpairwise⟩ := ih (n + 2)
    rw [spansFrom, List.length_cons]
    refine ⟨List.forall_mem_cons.2 ⟨⟨Nat.le_refl n, ?_⟩, fun span hspan => ?_⟩,
      .cons (fun span hspan => ?_) hpairwise⟩
    · change n + 1 < n + 2 * (steps.length + 1)
      omega
    · have hspan := hbounds span hspan
      omega
    · have hspan := hbounds span hspan
      change n + 1 < span.first
      omega

/-- The spans of a test in the manifest. -/
def Placed.spans (q : Placed) : List Span := q.test.spans.map (·.shift q.offset)

/-- Lines that come in pairs. -/
theorem getElem?_flatMap_pairs (pairs : List (String × String)) (i : Nat) :
    (pairs.flatMap fun (a, b) => [a, b])[2 * i]? = pairs[i]?.map (·.1) ∧
      (pairs.flatMap fun (a, b) => [a, b])[2 * i + 1]? = pairs[i]?.map (·.2) := by
  induction pairs generalizing i with
  | nil => exact ⟨rfl, rfl⟩
  | cons pair pairs ih =>
    obtain ⟨a, b⟩ := pair
    cases i with
    | zero => exact ⟨rfl, rfl⟩
    | succ i => exact ih i

variable {ν : Type} [ToValue ν] {r : Registry} {p : Draft ν} {slug : String}
  {ss : List (DraftScenario ν)} {m : TestModule} {qs : List Placed} {ls : List String}
  {s : DraftScenario ν} {q : Placed}

/-- The lines and the span of a step in a test. -/
theorem getElem?_testOf (name : String) {pairs : List (String × String)}
    (hpairs : stepLines (.text s.id) 0 (s.steps.map stepData) = .ok pairs)
    (hbound : ∀ t ∈ s.steps, ∀ b, t.resolution = .resolved b → b.WellFormed t.kind) {i : Nat}
    {t : DraftStep ν} (ht : s.steps[i]? = some t) : ∃ b, t.resolution = .resolved b ∧
      pairs[i]? = some (commentLine (stepData t), boundLine (actionsUpTo s.steps i) t b) ∧
      (testOf r name s pairs).spans[i]? =
        some ⟨t.kind, .text t.statement, toValue t.line, 6 + 2 * i, 6 + 2 * i + 1⟩ ∧
      (testOf r name s pairs).lines[6 + 2 * i - 1]? = some (commentLine (stepData t)) ∧
      (testOf r name s pairs).lines[6 + 2 * i]? =
        some (boundLine (actionsUpTo s.steps i) t b) := by
  obtain ⟨-, hget⟩ := getElem?_stepLines hpairs hbound
  obtain ⟨b, hb, hpair⟩ := hget i t ht
  rw [Nat.zero_add] at hpair
  obtain ⟨hcomment, hcode⟩ := getElem?_flatMap_pairs pairs i
  rw [hpair] at hcomment hcode
  have hline (k : Nat) : (testOf r name s pairs).lines[5 + k]? =
      (pairs.flatMap fun (a, b) => [a, b])[k]? := by
    have hhead : (headLines r name (shownTitle s) (.text s.id)).length = 5 := rfl
    rw [testOf, List.getElem?_append_right (by omega), hhead, Nat.add_sub_cancel_left]
  refine ⟨b, hb, hpair, ?_, ?_, ?_⟩
  · rw [testOf, getElem?_spansFrom, List.getElem?_map, ht]
    rfl
  · rw [show 6 + 2 * i - 1 = 5 + 2 * i by omega]
    exact (hline _).trans hcomment
  · rw [show 6 + 2 * i = 5 + (2 * i + 1) by omega]
    exact (hline _).trans hcode

/-- The span tells which step it is of, and points at its comment and at its code, from line `n` on. -/
structure Located (lines : List (List Char)) (n : Nat) (t : DraftStep ν) (code : String) (span : Span) :
    Prop where
  kind : span.kind = t.kind
  statement : span.statement = .text t.statement
  first : span.first = n
  last : span.last = span.first + 1
  comment : lines[span.first - 1]? = some s!"    # {t.kind.keyword} {t.statement}.".toList
  code : lines[span.last - 1]? = some code.toList

/-- The test is of the scenario, and has a span for each step. -/
structure Traced (lines : List (List Char)) (s : DraftScenario ν) (q : Placed) : Prop where
  id : q.test.scenarioId = .text s.id
  title : q.test.title = .text s.title
  length : q.spans.length = s.steps.length
  steps : ∃ pairs, stepLines (.text s.id) 0 (draftData s).steps = .ok pairs ∧
    ∀ (i : Nat) t, s.steps[i]? = some t → ∃ comment code span, pairs[i]? = some (comment, code) ∧
      q.spans[i]? = some span ∧ Located lines (q.offset + 6 + 2 * i) t code span

theorem LaidOut.traced (h : LaidOut r p slug ss m qs ls) (hq : q ∈ qs) (htest : TestsOf r s q)
    (hs : OnLines s) : Traced (Text.lines m.code.toList) s q := by
  obtain ⟨taken, pairs, -, hpairs, htest⟩ := htest
  have hline {k : Nat} {line : String} (hk : q.test.lines[k]? = some line) :
      (Text.lines m.code.toList)[q.offset + k]? = some line.toList := by
    have hbound := (List.getElem?_eq_some_iff.1 hk).1
    rw [h.lines, List.getElem?_map, h.getElem?_lines hq hbound, hk]
    rfl
  refine ⟨by rw [htest]; rfl, by rw [htest]; rfl, ?_, pairs, hpairs, fun i t ht => ?_⟩
  · rw [Placed.spans, htest, List.length_map]
    exact (length_spansFrom _ _).trans (List.length_map _)
  · obtain ⟨b, -, hpair, hspan, hcomment, hcode⟩ := getElem?_testOf q.test.name hpairs hs.bindings ht
    rw [← htest] at hspan hcomment hcode
    have hshift : q.spans[i]? = some ⟨t.kind, .text t.statement, toValue t.line,
        6 + 2 * i + q.offset, 6 + 2 * i + 1 + q.offset⟩ := by
      rw [Placed.spans, List.getElem?_map, hspan]
      rfl
    refine ⟨_, _, _, hpair, hshift, rfl, rfl, ?_, ?_, ?_, ?_⟩
    · change 6 + 2 * i + q.offset = q.offset + 6 + 2 * i
      omega
    · change 6 + 2 * i + 1 + q.offset = 6 + 2 * i + q.offset + 1
      omega
    · rw [show 6 + 2 * i + q.offset - 1 = q.offset + (6 + 2 * i - 1) by omega]
      exact hline hcomment
    · rw [show 6 + 2 * i + 1 + q.offset - 1 = q.offset + (6 + 2 * i) by omega]
      exact hline hcode

theorem length_flatMap_pairs (pairs : List (String × String)) :
    (pairs.flatMap fun (a, b) => [a, b]).length = 2 * pairs.length := by
  induction pairs with
  | nil => rfl
  | cons pair pairs ih =>
    rw [List.flatMap_cons, List.length_append, ih]
    change 2 + 2 * pairs.length = 2 * (pairs.length + 1)
    omega

/-- The spans of a test lie on its own lines. -/
theorem TestsOf.spans (h : TestsOf r s q) (hs : OnLines s) :
    (∀ span ∈ q.spans, q.offset < span.first ∧ span.last < q.offset + q.lines.length) ∧
      q.spans.Pairwise fun a b => a.last < b.first := by
  obtain ⟨taken, pairs, -, hpairs, htest⟩ := h
  obtain ⟨hlength, -⟩ := getElem?_stepLines hpairs hs.bindings
  obtain ⟨hbounds, hpairwise⟩ := pairwise_spansFrom 6 (s.steps.map stepData)
  have hlines : q.lines.length = 5 + 2 * s.steps.length + 2 := by
    rw [Placed.lines, htest, ← hlength, ← length_flatMap_pairs, List.length_append]
    exact congrArg (· + 2) List.length_append
  rw [Placed.spans, htest]
  refine ⟨List.forall_mem_map.2 fun span hspan => ?_, List.pairwise_map.2 (hpairwise.imp ?_)⟩
  · have hspan := hbounds span hspan
    rw [List.length_map] at hspan
    change q.offset < span.first + q.offset ∧ span.last + q.offset < _
    omega
  · intro a b hab
    exact Nat.add_lt_add_right hab q.offset

/-- The spans of a module come one after the other. -/
theorem LaidOut.pairwise_spans (h : LaidOut r p slug ss m qs ls) (hss : ∀ s ∈ ss, OnLines s) :
    (qs.flatMap Placed.spans).Pairwise fun a b => a.last < b.first := by
  have hspans : ∀ q ∈ qs, (∀ span ∈ q.spans, q.offset < span.first ∧
      span.last < q.offset + q.lines.length) ∧ q.spans.Pairwise fun a b => a.last < b.first := by
    intro q hq
    obtain ⟨s, hs, htest⟩ := exists_of_mem_forall₂ h.tests q hq
    exact htest.spans (hss s hs)
  rw [List.pairwise_flatMap]
  refine ⟨fun q hq => (hspans q hq).2, h.inPlace.pairwise.imp_of_mem ?_⟩
  intro a b ha hb hab x hx y hy
  have hx := ((hspans a ha).1 x hx).2
  have hy := ((hspans b hb).1 y hy).1
  omega

/-! Looking a failure up. -/

theorem spanHolds_record (span : Span) (n : Nat) :
    spanHolds span.record n = .ok (decide (span.first ≤ n ∧ n ≤ span.last)) := by
  have hfirst : span.record.item "first_line" = .ok (.int span.first) :=
    (Value.shows_record _).item rfl
  have hlast : span.record.item "last_line" = .ok (.int span.last) :=
    (Value.shows_record _).item rfl
  have hle (a b : Int) : (some (compare a b) = some .lt ∨ some (compare a b) = some .eq) ↔ a ≤ b := by
    rw [Option.some.injEq, Option.some.injEq, Int.compare_eq_lt, Int.compare_eq_eq]
    omega
  have hge (a b : Int) : (some (compare a b) = some .gt ∨ some (compare a b) = some .eq) ↔ b ≤ a := by
    rw [Option.some.injEq, Option.some.injEq, Int.compare_eq_gt, Int.compare_eq_eq]
    omega
  refine bind_eq_ok.2 ⟨_, hfirst, bind_eq_ok.2 ⟨some (compare (span.first : Int) n), rfl, ?_⟩⟩
  by_cases hn : span.first ≤ n
  · rw [if_pos ((hle _ _).2 (Int.ofNat_le.2 hn))]
    refine bind_eq_ok.2 ⟨_, hlast, bind_eq_ok.2 ⟨some (compare (span.last : Int) n), rfl, ?_⟩⟩
    refine congrArg Except.ok (decide_eq_decide.2 ?_)
    rw [hge, Int.ofNat_le]
    exact ⟨fun h => ⟨hn, h⟩, fun h => h.2⟩
  · rw [if_neg fun h => hn (Int.ofNat_le.1 ((hle _ _).1 h)), decide_eq_false fun h => hn h.1]
    rfl

theorem statementOf_record {span : Span} (h : span.statement = .text statement) :
    statementOf span.record = .ok (Phrase.ofText s!"{span.kind.keyword} {statement}.") := by
  have hkind : span.record.item "kind" = .ok (.text span.kind.keyword) :=
    (Value.shows_record _).item rfl
  have hstatement : span.record.item "statement" = .ok (.text statement) :=
    h ▸ (Value.shows_record _).item rfl
  refine bind_eq_ok.2 ⟨_, hkind, bind_eq_ok.2 ⟨_, hstatement, congrArg Except.ok ?_⟩⟩
  change Phrase.ofText span.kind.keyword ++ Phrase.ofText " " ++ Phrase.ofText statement ++
    Phrase.ofText "." = _
  rw [← Phrase.ofText_append, ← Phrase.ofText_append, ← Phrase.ofText_append]
  rfl

/-- The first span that holds a line is the only one. -/
theorem firstStatement?_of_pairwise {spans : List Span} {i n : Nat} {span : Span}
    (hpairwise : spans.Pairwise fun a b => a.last < b.first) (hi : spans[i]? = some span)
    (hfirst : span.first ≤ n) (hlast : n ≤ span.last)
    (hstatement : span.statement = .text statement) :
    firstStatement? (spanHolds · n) (spans.map Span.record) =
      .ok (some (Phrase.ofText s!"{span.kind.keyword} {statement}.")) := by
  induction spans generalizing i with
  | nil => cases hi
  | cons a spans ih =>
    obtain ⟨ha, hspans⟩ := List.pairwise_cons.1 hpairwise
    rw [List.map_cons, firstStatement?, spanHolds_record]
    cases i with
    | zero =>
      cases hi
      rw [decide_eq_true ⟨hfirst, hlast⟩]
      exact bind_eq_ok.2 ⟨true, rfl, bind_eq_ok.2 ⟨_, statementOf_record hstatement, rfl⟩⟩
    | succ i =>
      have hafter := ha span (List.mem_of_getElem? hi)
      rw [decide_eq_false (by omega)]
      exact ih hspans hi

theorem noOverlap_moduleFile {slug : String} (h : ':' ∉ slug.toList) :
    NoOverlap (moduleFile slug ++ ":").toList := by
  have hlist : (moduleFile slug ++ ":").toList = 't' :: ("est_".toList ++ slug.toList ++ ".py".toList) ++
      [':'] := by
    simp [moduleFile, toString]
  rw [hlist]
  refine noOverlap_of_colon ?_ (by decide)
  simp [h]

theorem colon_not_mem_moduleSlug (path : String) : ':' ∉ (moduleSlug path).toList :=
  (isGrouped_moduleSlug path).isFileName.not_mem rfl (by decide)

/-- The manifest of a module has the entry of each test under its name. -/
theorem member?_tests (file : String) (source : Value) (hnames : (qs.map (·.test.name)).Nodup)
    (hq : q ∈ qs) : ∃ tests, (manifestOf file source qs).memberD "tests" (.map []) = .ok tests ∧
      tests.member? q.test.name = .ok (some q.entry.2) := by
  have hkeys : ∀ es, Value.record (qs.map (·.entry)) = .map es → (es.map (·.1)).Nodup := by
    rintro es ⟨rfl⟩
    rw [List.map_map, List.map_map]
    refine (List.nodup_map_iff_inj_on hnames.of_map).2 fun a ha b hb hsame => ?_
    exact List.inj_on_of_nodup_map hnames ha hb (Value.text.inj hsame)
  refine ⟨.record (qs.map (·.entry)), (Value.shows_record _).memberD rfl _, congrArg Except.ok ?_⟩
  exact (Value.lookup?_eq_some (hkeys _ rfl)).2 (List.mem_map.2 ⟨q.entry, List.mem_map_of_mem hq, rfl⟩)

theorem failingStatement_eq {result : TestResult String}
    (hnumbers : (numbersAfter (result.file ++ ":").toList result.message.toList).getLast? = some digits)
    {n : Nat} (hn : lineNumber digits = .ok n) {told : Phrase}
    (htold : firstStatement? (spanHolds · n) (q.spans.map Span.record) = .ok (some told)) :
    failingStatement result q.entry.2 = .ok told := by
  have hsteps : q.entry.2.memberD "steps" (.list []) = .ok (.list (q.spans.map Span.record)) := by
    rw [Placed.spans, List.map_map]
    exact (Value.shows_record _).memberD rfl _
  refine bind_eq_ok.2 ⟨_, hsteps, ?_⟩
  dsimp only
  rw [hnumbers]
  exact bind_eq_ok.2 ⟨n, hn, bind_eq_ok.2 ⟨_, rfl, bind_eq_ok.2 ⟨some told, htold, rfl⟩⟩⟩

/-- The result of a test that failed, with what its manifest tells about it. -/
theorem attach_eq {manifests : Manifests} {source : Value} {result : TestResult String}
    (hmanifest : Value.lookup? result.file manifests = some (manifestOf result.file source qs))
    (hnames : (qs.map (·.test.name)).Nodup) (hq : q ∈ qs) (hname : result.name = q.test.name)
    (hstatus : result.status.isFailure = true)
    (hstatement : failingStatement { result with source } q.entry.2 = .ok (Phrase.ofText statement)) :
    result.attach manifests = .ok { result with
      source, scenarioId := q.test.scenarioId, title := q.test.title, statement := .text statement } := by
  have hsource : (manifestOf result.file source qs).memberD "spec_file" (.text "") = .ok source :=
    (Value.shows_record _).memberD rfl _
  have htext : Value.ofPhrase (Phrase.ofText statement) = .text statement := by
    simp [Value.ofPhrase, Phrase.ofText, Value.ofPoints, ofPoints?_points]
  obtain ⟨tests, htests, hentry⟩ := member?_tests result.file source hnames hq
  unfold TestResult.attach
  rw [hmanifest]
  refine bind_eq_ok.2 ⟨_, hsource, bind_eq_ok.2 ⟨_, htests, bind_eq_ok.2 ⟨_, hname ▸ hentry, ?_⟩⟩⟩
  refine bind_eq_ok.2 ⟨q.test.scenarioId, (Value.shows_record _).memberD rfl _, ?_⟩
  refine bind_eq_ok.2 ⟨q.test.title, (Value.shows_record _).memberD rfl _, ?_⟩
  dsimp only
  rw [if_pos hstatus]
  refine bind_eq_ok.2 ⟨_, hstatement, ?_⟩
  rw [htext]
  rfl

end Emission

namespace Project

open Emission Plan

/-- A failure is traced to the right statement. The spans of a manifest point at the comment and the
code of their steps, test by test behind the head, and come one after the other. So where the last
line number that a message has for the module lies in a step, the result is given the statement of
this step, and the scenario and source of its test. Slugs of modules have no colon. -/
theorem failures_traced {v : Value} {origin : String} {r : Registry}
    (hr : Registry.ofValue v origin = .ok r) {content : String} {source : Option String} {spec : Spec}
    (hspec : Spec.parse content source = .ok spec) (hpath : OneLine spec.path.toList) {p d : Plan}
    (hp : Plan.ofSpec spec = .ok p) (hd : p.resolve r = .ok d) (slug : String) :
    ∃ m qs, testModule r d.stored slug d.ready.stored.scenarios = .ok m ∧ m.file = moduleFile slug ∧
      m.tests = qs.map (·.test) ∧ m.manifest = manifestOf m.file (.text spec.path) qs ∧
      List.Forall₂ (Traced (Text.lines m.code.toList)) (d.scenarios.filter (·.isResolved)) qs ∧
      InPlace (moduleHead r spec.path (shownDescription d)).length qs ∧
      (qs.flatMap Placed.spans).Pairwise (fun a b => a.last < b.first) ∧
      (':' ∉ slug.toList → ∀ manifests, Value.lookup? m.file manifests = some m.manifest →
        ∀ s q, (s, q) ∈ (d.scenarios.filter (·.isResolved)).zip qs →
        ∀ (i : Nat) t span, s.steps[i]? = some t → q.spans[i]? = some span →
        ∀ (result : TestResult String) digits n, result.status.isFailure = true →
          result.file = m.file → result.name = q.test.name →
          LastNumber (m.file ++ ":").toList digits result.message.toList →
          lineNumber digits = .ok n → span.first ≤ n → n ≤ span.last →
          result.attach manifests = .ok { result with
            source := .text spec.path, scenarioId := .text s.id, title := .text s.title,
            statement := .text s!"{t.kind.keyword} {t.statement}." }) := by
  obtain ⟨hsource, hdescription, hall⟩ := onLines_of_resolve hr hspec hp hd
  have hlines : ∀ s ∈ d.scenarios.filter (·.isResolved), OnLines s :=
    fun s hs => hall s (List.mem_of_mem_filter hs)
  obtain ⟨m, hm, -⟩ := exists_testModule_ready r (complete_of_resolve hr hd) slug
  have hm' := hm
  rw [ready_stored] at hm'
  obtain ⟨qs, ls, h⟩ := exists_laidOut (Registry.named_of_ofValue hr) (hsource ▸ hpath) hdescription
    hlines hm'
  have htraced : List.Forall₂ (Traced (Text.lines m.code.toList))
      (d.scenarios.filter (·.isResolved)) qs :=
    (forall₂_mem h.tests).imp fun s q ⟨hs, hq, htest⟩ => h.traced hq htest (hlines s hs)
  have hfile : m.file = moduleFile slug := by
    rw [h.module]
    rfl
  have hmanifest : m.manifest = manifestOf m.file (.text spec.path) qs := by
    rw [← hsource, h.module]
    rfl
  refine ⟨m, qs, hm, hfile, ?_, hmanifest, htraced, hsource ▸ h.inPlace, h.pairwise_spans hlines, ?_⟩
  · rw [h.module]
    rfl
  · -- spans of one test do not overlap, so the first that holds the line is that of the step
    intro hcolon manifests hlookup s q hsq i t span ht hspan result digits n hstatus hresult hname
      hlast hn hlow hhigh
    obtain ⟨hs, hq⟩ := List.of_mem_zip hsq
    have htrace := (List.forall₂_iff_zip.1 htraced).2 hsq
    have htest := (List.forall₂_iff_zip.1 h.tests).2 hsq
    obtain ⟨pairs, -, hsteps⟩ := htrace.steps
    obtain ⟨comment, code, span', -, hspan', hlocated⟩ := hsteps i t ht
    obtain rfl : span' = span := Option.some.inj (hspan'.symm.trans hspan)
    have htold := firstStatement?_of_pairwise (htest.spans (hlines s hs)).2 hspan hlow hhigh
      hlocated.statement
    have hnumbers := getLast?_numbersAfter (by simp) (noOverlap_moduleFile hcolon) (hfile ▸ hlast)
    have hfailing : failingStatement { result with source := .text spec.path } q.entry.2 = .ok _ :=
      failingStatement_eq (by rw [hresult, hfile]; exact hnumbers) hn htold
    rw [hmanifest] at hlookup
    rw [attach_eq (by rw [hresult]; exact hlookup) h.names hq hname hstatus hfailing, htrace.id,
      htrace.title, hlocated.kind]

/-- A failure of a test of the short spec, in its second step. -/
def briefFailure (name : String) : TestResult String where
  name := name
  status := .failed
  file := "test_brief.py"
  message := "test_brief.py:18: in test\ntest_brief.py:21: Failed"

theorem moduleSlug_brief : moduleSlug "brief.gwt" = "brief" := by decide +kernel

theorem failures_traced_brief : Registry.ofValue brief "brief.yaml" = .ok briefRegistry ∧
    Spec.parse briefText (some "\"\"\".gwt") = .ok briefSpec ∧ OneLine briefSpec.path.toList ∧
    ofSpec briefSpec = .ok briefPlan ∧ ∃ d, briefPlan.resolve briefRegistry = .ok d ∧
    ∃ m, testModule briefRegistry d.stored (moduleSlug "brief.gwt") d.ready.stored.scenarios = .ok m ∧
    ∃ name attached, (briefFailure name).attach [(.text "test_brief.py", m.manifest)] = .ok attached ∧
      attached.source = .text "\"\"\".gwt" ∧ attached.statement = .text "THEN b." := by
  have hpath : OneLine briefSpec.path.toList := by decide
  obtain ⟨d, hd, hdescription, s, hs, hresolved, hsteps⟩ := exists_resolve_briefPlan
  obtain ⟨m, qs, hm, hfile, -, -, htraced, hplace, -, htrace⟩ :=
    failures_traced ofValue_brief parse_briefText hpath ofSpec_briefSpec hd (moduleSlug "brief.gwt")
  have hready : d.scenarios.filter (·.isResolved) = [s] := by simp [hs, hresolved]
  rw [hready] at htraced htrace
  obtain ⟨q, qs, hq, hqs, rfl⟩ := List.forall₂_cons_left_iff.1 htraced
  obtain rfl := List.forall₂_nil_left_iff.1 hqs
  -- the offset of the only test is the length of the head, which makes the lines of the step known
  have hoffset : q.offset = 12 := by
    rw [hplace.1, shownDescription, hdescription]
    rfl
  obtain ⟨pairs, -, hlocated⟩ := hq.steps
  have ht : (s.steps.map fun t => (t.kind, t.statement))[1]? = some (.outcome, "b") := by
    rw [hsteps]
    rfl
  rw [List.getElem?_map, Option.map_eq_some_iff] at ht
  obtain ⟨t, ht, hstep⟩ := ht
  obtain ⟨comment, code, span, -, hspan, hat⟩ := hlocated 1 t ht
  have hfirst : span.first = 20 := by rw [hat.first, hoffset]
  have hlast : span.last = 21 := by rw [hat.last, hfirst]
  have hname : m.file = "test_brief.py" := by
    rw [hfile, moduleSlug_brief]
    decide
  have hmessage : (briefFailure q.test.name).message.toList = "test_brief.py:18: in test\n".toList ++
      ((moduleFile "brief" ++ ":").toList ++ (['2', '1'] ++ ": Failed".toList)) := by
    dsimp only [briefFailure]
    decide
  have hnumber : LastNumber (m.file ++ ":").toList ['2', '1']
      (briefFailure q.test.name).message.toList := by
    rw [hfile, moduleSlug_brief, hmessage]
    exact lastNumber_append (noOverlap_moduleFile (by decide)) _ (by decide)
      (forall_mem_of_all (by decide)) (by rintro c ⟨rfl⟩; rfl) (by decide)
  have hattached := htrace (colon_not_mem_moduleSlug _) [(.text "test_brief.py", m.manifest)]
    (by rw [hname]; rfl) s q (by simp) 1 t span ht hspan (briefFailure q.test.name) ['2', '1'] 21 rfl
    hname.symm rfl hnumber rfl (by omega) (by omega)
  refine ⟨ofValue_brief, parse_briefText, hpath, ofSpec_briefSpec, d, hd, m, hm, q.test.name, _,
    hattached, rfl, ?_⟩
  obtain ⟨hkind, hstatement⟩ := Prod.mk.inj hstep
  change Value.text s!"{t.kind.keyword} {t.statement}." = _
  rw [hkind, hstatement]
  rfl

end Project
end Acceptance

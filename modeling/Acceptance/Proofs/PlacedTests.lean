import Acceptance.Proofs.EmittedLines
/-!
Where tests stand in a module. The text of a module has the lines of its head and of its tests, less
the empty ones at the end, and every test has a name of its own and starts at its offset.
-/
namespace Acceptance

variable {taken : List String} {n : Nat} {name : String}

namespace Text

/-- Lines as a text, each with a break behind it. -/
def joined (ls : List (List Char)) : List Char := ls.flatMap (· ++ ['\n'])

@[simp] theorem joined_cons (l : List Char) (ls : List (List Char)) :
    joined (l :: ls) = l ++ '\n' :: joined ls := by
  simp [joined]

end Text

namespace Emission

open Plan Text

variable {ν : Type} [ToValue ν] {r : Registry}

/-! One test. -/

/-- The title that a test shows. -/
def shownTitle (s : DraftScenario ν) : String := if s.title = "" then "untitled" else s.title

/-- The test of a scenario, with its name and the lines of its steps. -/
def testOf (r : Registry) (name : String) (s : DraftScenario ν) (pairs : List (String × String)) :
    TestCode :=
  ⟨name, .text s.id, .text s.title,
    headLines r name (shownTitle s) (.text s.id) ++ pairs.flatMap (fun (a, b) => [a, b]),
    spansFrom 6 (s.steps.map stepData)⟩

theorem testCode_eq_ok {s : DraftScenario ν} {t : TestCode}
    (h : testCode r taken (draftData s) = .ok t) :
    ∃ name pairs, testName taken (draftData s) = .ok name ∧
      stepLines (.text s.id) 0 (s.steps.map stepData) = .ok pairs ∧ t = testOf r name s pairs := by
  obtain ⟨name, hname, h⟩ := bind_eq_ok.1 h
  have hname : testName taken (draftData s) = .ok name := eq_ok_of_mapError hname
  have htruthy : (draftData s).title.isTruthy = (s.title != "") := rfl
  dsimp only at h
  split at h
  all_goals
    obtain ⟨title, htitle, h⟩ := bind_eq_ok.1 h
    obtain ⟨pairs, hpairs, h⟩ := bind_eq_ok.1 h
    have hsame : title = shownTitle s := by
      cases htitle
      simp_all [shownTitle]
    cases h
    exact ⟨name, pairs, hname, eq_ok_of_mapError hpairs, hsame ▸ rfl⟩

/-- The placed test is the one of the scenario. -/
def TestsOf (r : Registry) (s : DraftScenario ν) (q : Placed) : Prop :=
  ∃ taken pairs, testName taken (draftData s) = .ok q.test.name ∧
    stepLines (.text s.id) 0 (s.steps.map stepData) = .ok pairs ∧
      q.test = testOf r q.test.name s pairs

/-! Tests one after the other. -/

/-- Each test starts where the one before it ends, the first at line `n`. -/
def InPlace : Nat → List Placed → Prop
  | _, [] => True
  | n, q :: qs => q.offset = n ∧ InPlace (n + q.lines.length) qs

theorem InPlace.le_offset {qs : List Placed} (h : InPlace n qs) : ∀ q ∈ qs, n ≤ q.offset := by
  induction qs generalizing n with
  | nil => simp
  | cons q qs ih =>
    obtain ⟨hq, hqs⟩ := h
    refine List.forall_mem_cons.2 ⟨hq.ge, fun q' hq' => ?_⟩
    exact Nat.le_trans (Nat.le_add_right _ _) (ih hqs q' hq')

theorem InPlace.pairwise {qs : List Placed} (h : InPlace n qs) :
    qs.Pairwise fun a b => a.offset + a.lines.length ≤ b.offset := by
  induction qs generalizing n with
  | nil => exact .nil
  | cons q qs ih =>
    obtain ⟨rfl, hqs⟩ := h
    exact .cons hqs.le_offset (ih hqs)

/-- The lines of a test are found from its offset on. -/
theorem InPlace.getElem?_lines {before : List String} {qs : List Placed}
    (h : InPlace before.length qs) {q : Placed} (hq : q ∈ qs) {k : Nat} (hk : k < q.lines.length) :
    (before ++ qs.flatMap (·.lines))[q.offset + k]? = q.lines[k]? := by
  induction qs generalizing before with
  | nil => cases hq
  | cons p qs ih =>
    obtain ⟨hp, hqs⟩ := h
    rw [List.flatMap_cons]
    rcases List.mem_cons.1 hq with rfl | hq
    · rw [hp, List.getElem?_append_right (Nat.le_add_right _ _), Nat.add_sub_cancel_left,
        List.getElem?_append_left hk]
    · rw [← List.append_assoc]
      rw [← List.length_append] at hqs
      exact ih hqs hq

theorem testName_not_mem {s : StoredScenario} (h : testName taken s = .ok name) : name ∉ taken := by
  obtain ⟨source, -, h⟩ := bind_eq_ok.1 h
  obtain ⟨id, -, h⟩ := bind_eq_ok.1 h
  cases h
  exact freshName_not_mem taken _

theorem named_of_testCode {s : StoredScenario} {t : TestCode} (h : testCode r taken s = .ok t) :
    testName taken s = .ok t.name ∧ t.scenarioId = s.id := by
  obtain ⟨name, hname, h⟩ := bind_eq_ok.1 h
  dsimp only at h
  split at h
  all_goals
    obtain ⟨title, -, h⟩ := bind_eq_ok.1 h
    obtain ⟨pairs, -, h⟩ := bind_eq_ok.1 h
    cases h
    exact ⟨eq_ok_of_mapError hname, rfl⟩

/-- Tests have names of their own, since the name of each is taken for all tests behind it. -/
theorem names_placedFrom {ss : List StoredScenario} {qs : List Placed}
    (h : placedFrom r taken n ss = .ok qs) :
    (qs.map (·.test.name)).Nodup ∧ ∀ q ∈ qs, q.test.name ∉ taken := by
  induction ss generalizing taken n qs with
  | nil =>
    cases h
    exact ⟨.nil, by simp⟩
  | cons s ss ih =>
    obtain ⟨test, htest, h⟩ := bind_eq_ok.1 h
    obtain ⟨later, hlater, h⟩ := bind_eq_ok.1 h
    cases h
    obtain ⟨hnodup, hnew⟩ := ih hlater
    constructor
    · refine List.nodup_cons.2 ⟨fun hmem => ?_, hnodup⟩
      obtain ⟨q, hq, hsame⟩ := List.mem_map.1 hmem
      exact hnew q hq (hsame ▸ List.mem_cons_self)
    · refine List.forall_mem_cons.2 ⟨testName_not_mem (named_of_testCode htest).1, ?_⟩
      exact fun q hq htaken => hnew q hq (List.mem_cons_of_mem _ htaken)

theorem placedFrom_eq_ok {ss : List (DraftScenario ν)} {qs : List Placed}
    (h : placedFrom r taken n (ss.map draftData) = .ok qs) :
    List.Forall₂ (TestsOf r) ss qs ∧ InPlace n qs := by
  induction ss generalizing taken n qs with
  | nil =>
    cases h
    exact ⟨.nil, trivial⟩
  | cons s ss ih =>
    obtain ⟨test, htest, h⟩ := bind_eq_ok.1 h
    obtain ⟨later, hlater, h⟩ := bind_eq_ok.1 h
    cases h
    obtain ⟨name, pairs, hname, hpairs, rfl⟩ := testCode_eq_ok htest
    obtain ⟨htests, hplace⟩ := ih hlater
    exact ⟨.cons ⟨taken, pairs, hname, hpairs, rfl⟩ htests, rfl, hplace⟩

/-! The lines of a module. -/

/-- The description that a module shows. -/
def shownDescription (p : Draft ν) : Option String :=
  if p.description = "" then none else some p.description

/-- All lines that a module is put together from. -/
def moduleLines (r : Registry) (p : Draft ν) (qs : List Placed) : List String :=
  moduleHead r p.source (shownDescription p) ++ qs.flatMap (·.lines)

theorem testModule_eq_ok {p : Draft ν} {slug : String} {scenarios : List StoredScenario}
    {m : TestModule} (h : testModule r p.stored slug scenarios = .ok m) :
    ∃ qs, placedFrom r [] (moduleHead r p.source (shownDescription p)).length scenarios = .ok qs ∧
      m = moduleOf p.source slug (moduleHead r p.source (shownDescription p)) (.text p.source) qs := by
  have htruthy : p.stored.description.isTruthy = (p.description != "") := rfl
  obtain ⟨source, hsource, h⟩ := bind_eq_ok.1 h
  cases hsource
  dsimp only at h
  split at h
  all_goals
    obtain ⟨description, hdescription, h⟩ := bind_eq_ok.1 h
    obtain ⟨qs, hqs, h⟩ := bind_eq_ok.1 h
    have hsame : description = shownDescription p := by
      cases hdescription
      simp_all [shownDescription]
    cases h
    exact ⟨qs, hsame ▸ hqs, hsame ▸ rfl⟩

/-- Two empty lines come last, and before them one that has no blank at its end. -/
def Closed (ls : List String) : Prop := ∃ before line, ls = before ++ [line, "", ""] ∧ EndsBare line

theorem Closed.append {ls : List String} (h : Closed ls) (before : List String) :
    Closed (before ++ ls) := by
  obtain ⟨inner, line, rfl, hline⟩ := h
  exact ⟨before ++ inner, line, (List.append_assoc ..).symm, hline⟩

theorem Closed.flatMap_lines {head : List String} (hhead : Closed head) {qs : List Placed}
    (hqs : ∀ q ∈ qs, Closed q.lines) : Closed (head ++ qs.flatMap (·.lines)) := by
  rcases List.eq_nil_or_concat qs with rfl | ⟨qs, q, rfl⟩
  · simpa using hhead
  · rw [List.concat_eq_append, List.flatMap_append, ← List.append_assoc]
    refine Closed.append ?_ _
    simpa using hqs q (by simp)

/-- All but the two empty lines are left, each with a break. -/
theorem Closed.toList_code {ls : List String} (h : Closed ls) : ∃ kept, ls = kept ++ ["", ""] ∧
    (String.ofList (trimEnd (String.intercalate "\n" ls).toList) ++ "\n").toList =
      joined (kept.map String.toList) := by
  obtain ⟨before, line, rfl, cs, c, hline, hc⟩ := h
  refine ⟨before ++ [line], by simp, ?_⟩
  have hbreaks : (String.intercalate "\n" (before ++ [line, "", ""])).toList =
      joined (before.map String.toList) ++ cs ++ [c] ++ ['\n'] ++ ['\n'] := by
    have hsplit : (before ++ [line, "", ""]).map String.toList =
        ((before ++ [line, ""]).map String.toList) ++ [[]] := by simp
    rw [String.toList_intercalate, hsplit]
    refine (Spec.intercalate_newline _).trans ?_
    simp [joined, hline]
  rw [String.toList_append, String.toList_ofList, hbreaks, trimEnd_append_blank (by decide),
    trimEnd_append_blank (by decide), trimEnd_append_singleton hc]
  simp [joined, hline]

theorem closed_of_endsBare {line : String} (h : EndsBare line) (before : List String) :
    Closed (before ++ [line] ++ ["", ""]) :=
  ⟨before, line, List.append_assoc .., h⟩

theorem closed_moduleHead (r : Registry) (source : String) (description : Option String) :
    Closed (moduleHead r source description) := by
  unfold moduleHead fixtureLines
  split
  · refine Closed.append ?_ _
    cases r.teardown with
    | none =>
      rw [Option.map_none, Option.toList_none, List.append_nil]
      exact closed_of_endsBare ⟨"    yiel".toList, 'd', rfl, rfl⟩ _
    | some op => exact closed_of_endsBare (.append ⟨['('], ')', rfl, rfl⟩ _) _
  · rw [List.append_nil]
    exact Closed.append
      (closed_of_endsBare (.append ⟨" as op".toList, 's', rfl, rfl⟩ _)
        ["\"\"\"", "", "import pytest", ""]) _

/-! Scenarios whose texts stay on a line. -/

/-- Nothing in the scenario breaks a line, and its steps are bound as their kinds ask. -/
structure OnLines (s : DraftScenario ν) : Prop where
  id : ∀ c ∈ s.id.toList, Spec.isNameChar c = true
  title : OneLine s.title.toList
  statements : ∀ t ∈ s.steps, OneLine t.statement.toList
  bindings : ∀ t ∈ s.steps, ∀ b, t.resolution = .resolved b → b.WellFormed t.kind

theorem OnLines.oneLine_id {ν : Type} {s : DraftScenario ν} (h : OnLines s) : OneLine s.id.toList :=
  fun c hc => isBreak_of_isNameChar (h.id c hc)

theorem oneLine_docText {s : String} (h : OneLine s.toList) : OneLine (docText s).toList := by
  rw [docText, String.toList_ofList]
  generalize s.toList = cs at h
  fun_induction docChars cs with
  | case1 cs ih =>
    simp only [oneLine_cons] at h
    exact oneLine_append.2 ⟨by decide, ih h.2.2.2⟩
  | case2 cs ih => exact oneLine_cons.2 ⟨rfl, oneLine_cons.2 ⟨rfl, ih (oneLine_cons.1 h).2⟩⟩
  | case3 c cs _ _ ih => exact oneLine_cons.2 ⟨(oneLine_cons.1 h).1, ih (oneLine_cons.1 h).2⟩
  | case4 => exact h

theorem oneLine_testName {s : DraftScenario ν} (hid : OneLine s.id.toList)
    (h : testName taken (draftData s) = .ok name) : OneLine name.toList := by
  obtain ⟨source, -, h⟩ := bind_eq_ok.1 h
  obtain ⟨id, hstart, h⟩ := bind_eq_ok.1 h
  cases hstart
  cases h
  have hstart : OneLine (String.ofList (s.id.toList.take 8)).toList := by
    rw [String.toList_ofList]
    exact fun c hc => hid c (List.mem_of_mem_take hc)
  refine oneLine_of_mem_numbered ?_ _ _ (freshName_mem_numbered taken _)
  exact oneLine_string_append.2 ⟨oneLine_string_append.2
    ⟨oneLine_string_append.2 ⟨by decide, oneLine_testSlug source⟩, by decide⟩, hstart⟩

theorem oneLine_headLines (r : Registry) {title id : String} (hname : OneLine name.toList)
    (htitle : OneLine title.toList) (hid : OneLine id.toList) :
    ∀ line ∈ headLines r name title (.text id), OneLine line.toList := by
  have harguments : OneLine (if usesFixture r then fixtureName else "").toList := by
    split <;> decide
  simp only [headLines, List.forall_mem_cons]
  refine ⟨?_, ?_, by decide, ?_, by decide, List.forall_mem_nil _⟩
  · exact oneLine_string_append.2 ⟨oneLine_string_append.2 ⟨oneLine_string_append.2
      ⟨oneLine_string_append.2 ⟨by decide, hname⟩, by decide⟩, harguments⟩, by decide⟩
  · exact oneLine_string_append.2 ⟨by decide, oneLine_docText htitle⟩
  · exact oneLine_string_append.2 ⟨by decide, hid⟩

theorem oneLine_moduleHead {r : Registry} (hr : r.Named) {source : String}
    (hsource : OneLine source.toList) {description : Option String}
    (hdescription : ∀ d ∈ description, OneLine d.toList) :
    ∀ line ∈ moduleHead r source description, OneLine line.toList := by
  have hoperation {op : String} (hop : Registry.isDotted op = true) :
      OneLine s!"    ops.{op}()".toList :=
    oneLine_string_append.2
      ⟨oneLine_string_append.2 ⟨by decide, oneLine_of_isDotted hop⟩, by decide⟩
  have hcalls {operation : Option String} (hop : ∀ op ∈ operation, Registry.isDotted op = true) :
      ∀ line ∈ (operation.map fun op => s!"    ops.{op}()").toList, OneLine line.toList := by
    intro line hline
    obtain ⟨op, hmem, rfl⟩ := Option.map_eq_some_iff.1 (Option.mem_toList.1 hline)
    exact hoperation (hop op hmem)
  unfold moduleHead
  refine List.forall_mem_append.2 ⟨List.forall_mem_append.2 ⟨List.forall_mem_append.2 ⟨?_, ?_⟩, ?_⟩, ?_⟩
  · simp only [List.forall_mem_cons]
    refine ⟨?_, by decide, by decide, List.forall_mem_nil _⟩
    exact oneLine_string_append.2
      ⟨oneLine_string_append.2 ⟨by decide, oneLine_docText hsource⟩, by decide⟩
  · cases description with
    | none => exact List.forall_mem_nil _
    | some d =>
      exact List.forall_mem_cons.2 ⟨by decide, List.forall_mem_singleton.2
        (oneLine_docText (hdescription d rfl))⟩
  · simp only [List.forall_mem_cons]
    refine ⟨by decide, by decide, by decide, by decide, ?_, by decide, by decide, List.forall_mem_nil _⟩
    exact oneLine_string_append.2
      ⟨oneLine_string_append.2 ⟨by decide, oneLine_of_isDotted hr.moduleName⟩, by decide⟩
  · unfold fixtureLines
    split
    · refine List.forall_mem_append.2 ⟨List.forall_mem_append.2 ⟨List.forall_mem_append.2
        ⟨List.forall_mem_append.2 ⟨?_, hcalls hr.setup⟩, ?_⟩, hcalls hr.teardown⟩, ?_⟩
      · simp only [List.forall_mem_cons]
        exact ⟨by decide, by decide, List.forall_mem_nil _⟩
      · exact List.forall_mem_singleton.2 (by decide)
      · simp only [List.forall_mem_cons]
        exact ⟨by decide, by decide, List.forall_mem_nil _⟩
    · exact List.forall_mem_nil _

variable {s : DraftScenario ν} {q : Placed}

/-- Every pair of lines is the comment and the code of a step. -/
theorem exists_of_mem_pairs (hs : OnLines s) {pairs : List (String × String)}
    (h : stepLines (.text s.id) 0 (s.steps.map stepData) = .ok pairs) :
    ∀ pair ∈ pairs, ∃ t ∈ s.steps, ∃ n b, b.WellFormed t.kind ∧
      pair = (commentLine (stepData t), boundLine n t b) := by
  obtain ⟨hlength, hget⟩ := getElem?_stepLines h hs.bindings
  intro pair hpair
  obtain ⟨i, hi, rfl⟩ := List.mem_iff_getElem.1 hpair
  have ht : s.steps[i]? = some s.steps[i] := List.getElem?_eq_getElem (hlength ▸ hi)
  obtain ⟨b, hb, hsome⟩ := hget i _ ht
  have hmem := List.mem_of_getElem? ht
  have hpair := Option.some.inj ((List.getElem?_eq_getElem hi).symm.trans hsome)
  exact ⟨_, hmem, _, b, hs.bindings _ hmem b hb, hpair⟩

theorem TestsOf.oneLine (h : TestsOf r s q) (hs : OnLines s) :
    ∀ line ∈ q.lines, OneLine line.toList := by
  obtain ⟨taken, pairs, hname, hpairs, htest⟩ := h
  have htitle : OneLine (shownTitle s).toList := by
    unfold shownTitle
    split
    · decide
    · exact hs.title
  rw [Placed.lines, htest]
  refine List.forall_mem_append.2 ⟨List.forall_mem_append.2 ⟨?_, ?_⟩, ?_⟩
  · exact oneLine_headLines r (oneLine_testName hs.oneLine_id hname) htitle hs.oneLine_id
  · refine List.forall_mem_flatMap.2 fun pair hpair => ?_
    obtain ⟨t, ht, n, b, hb, rfl⟩ := exists_of_mem_pairs hs hpairs pair hpair
    refine List.forall_mem_cons.2 ⟨oneLine_commentLine (hs.statements t ht), ?_⟩
    exact List.forall_mem_singleton.2 (oneLine_boundLine n hb)
  · simp only [List.forall_mem_cons]
    exact ⟨by decide, by decide, List.forall_mem_nil _⟩

theorem TestsOf.closed (h : TestsOf r s q) (hs : OnLines s) : Closed q.lines := by
  obtain ⟨taken, pairs, hname, hpairs, htest⟩ := h
  rw [Placed.lines, htest]
  change Closed ((_ ++ pairs.flatMap _) ++ _)
  rcases List.eq_nil_or_concat pairs with rfl | ⟨before, pair, rfl⟩
  · rw [List.flatMap_nil, List.append_nil]
    have hclosing : EndsBare "    \"\"\"" := ⟨"    \"\"".toList, '"', rfl, rfl⟩
    exact closed_of_endsBare hclosing ((headLines r q.test.name (shownTitle s) (.text s.id)).take 4)
  · obtain ⟨t, -, n, b, -, rfl⟩ := exists_of_mem_pairs hs hpairs pair (by simp)
    rw [List.concat_eq_append, List.flatMap_append, List.flatMap_singleton, ← List.append_assoc]
    have hclosed := closed_of_endsBare (endsBare_boundLine n t b)
      (headLines r q.test.name (shownTitle s) (.text s.id) ++
        before.flatMap (fun (a, b) => [a, b]) ++ [commentLine (stepData t)])
    simpa using hclosed

/-- The module has the given tests, and its text the given lines. -/
structure LaidOut (r : Registry) (p : Draft ν) (slug : String) (ss : List (DraftScenario ν))
    (m : TestModule) (qs : List Placed) (ls : List String) : Prop where
  module : m = moduleOf p.source slug (moduleHead r p.source (shownDescription p)) (.text p.source) qs
  tests : List.Forall₂ (TestsOf r) ss qs
  inPlace : InPlace (moduleHead r p.source (shownDescription p)).length qs
  names : (qs.map (·.test.name)).Nodup
  whole : moduleLines r p qs = ls ++ ["", ""]
  code : m.code.toList = joined (ls.map String.toList)
  lines : Text.lines m.code.toList = ls.map String.toList

variable {p : Draft ν} {slug : String} {ss : List (DraftScenario ν)} {m : TestModule}
  {qs : List Placed} {ls : List String}

theorem exists_laidOut (hr : r.Named) (hsource : OneLine p.source.toList)
    (hdescription : OneLine p.description.toList) (hss : ∀ s ∈ ss, OnLines s)
    (h : testModule r p.stored slug (ss.map draftData) = .ok m) :
    ∃ qs ls, LaidOut r p slug ss m qs ls := by
  obtain ⟨qs, hqs, rfl⟩ := testModule_eq_ok h
  obtain ⟨htests, hplace⟩ := placedFrom_eq_ok hqs
  obtain ⟨hnames, -⟩ := names_placedFrom hqs
  have hclosed : Closed (moduleLines r p qs) := by
    refine (closed_moduleHead r p.source (shownDescription p)).flatMap_lines fun q hq => ?_
    obtain ⟨s, hs, hq⟩ := exists_of_mem_forall₂ htests q hq
    exact hq.closed (hss s hs)
  have hone : ∀ line ∈ moduleLines r p qs, OneLine line.toList := by
    refine List.forall_mem_append.2 ⟨oneLine_moduleHead hr hsource ?_, ?_⟩
    · unfold shownDescription
      split
      · simp
      · rintro d ⟨rfl⟩
        exact hdescription
    · refine List.forall_mem_flatMap.2 fun q hq => ?_
      obtain ⟨s, hs, hq⟩ := exists_of_mem_forall₂ htests q hq
      exact hq.oneLine (hss s hs)
  -- the two empty lines at the end are trimmed, and no other line is
  obtain ⟨ls, hls, hcode⟩ := hclosed.toList_code
  refine ⟨qs, ls, rfl, htests, hplace, hnames, hls, hcode, ?_⟩
  have hkept : ∀ l ∈ ls.map String.toList, OneLine l := by
    refine List.forall_mem_map.2 fun line hline => hone line ?_
    rw [hls]
    exact List.mem_append_left _ hline
  exact (congrArg Text.lines hcode).trans (lines_flatMap hkept)

/-- Line `k` of a test is line `k` from its offset on. -/
theorem LaidOut.getElem?_lines (h : LaidOut r p slug ss m qs ls) (hq : q ∈ qs) {k : Nat}
    (hk : k < q.test.lines.length) : ls[q.offset + k]? = q.test.lines[k]? := by
  have hlength : q.lines.length = q.test.lines.length + 2 := List.length_append
  have hwhole {k : Nat} (hk : k < q.lines.length) : (ls ++ ["", ""])[q.offset + k]? = q.lines[k]? := by
    rw [← h.whole]
    exact h.inPlace.getElem?_lines hq hk
  -- the two empty lines behind the test are still there, so the line is none of the last two
  have hbound : q.offset + (k + 2) < (ls ++ ["", ""]).length := by
    have hget := (hwhole (k := k + 2) (by omega)).trans (List.getElem?_eq_getElem (by omega))
    exact (List.getElem?_eq_some_iff.1 hget).1
  have hkept : q.offset + k < ls.length := by
    simp only [List.length_append, List.length_cons, List.length_nil] at hbound
    omega
  have hget := hwhole (k := k) (by omega)
  rwa [List.getElem?_append_left hkept, Placed.lines, List.getElem?_append_left hk] at hget

/-- The lines of a test stand together. -/
theorem LaidOut.exists_append (h : LaidOut r p slug ss m qs ls) (hq : q ∈ qs) :
    ∃ before rest, ls = before ++ q.test.lines ++ rest := by
  obtain ⟨qs₁, qs₂, rfl⟩ := List.append_of_mem hq
  obtain ⟨rest, hrest⟩ : ∃ rest, ["", ""] ++ qs₂.flatMap (·.lines) = rest ++ ["", ""] := by
    rcases List.eq_nil_or_concat qs₂ with rfl | ⟨qs₂, q', rfl⟩
    · exact ⟨[], rfl⟩
    · refine ⟨["", ""] ++ qs₂.flatMap (·.lines) ++ q'.test.lines, ?_⟩
      simp [Placed.lines]
  refine ⟨moduleHead r p.source (shownDescription p) ++ qs₁.flatMap (·.lines), rest, ?_⟩
  have hwhole : ls ++ ["", ""] = moduleHead r p.source (shownDescription p) ++
      qs₁.flatMap (·.lines) ++ q.test.lines ++ rest ++ ["", ""] := by
    rw [← h.whole, List.append_assoc _ rest, ← hrest, moduleLines]
    simp [Placed.lines]
  exact List.append_cancel_right hwhole

end Emission

namespace Plan

open Emission Text

theorem isNameChar_scenarioId (statements : List (Kind × String)) :
    ∀ c ∈ (scenarioId statements).toList, Spec.isNameChar c = true := by
  have hdigit : ∀ k < 16, Spec.isNameChar (Nat.digitChar k) = true := by decide
  rw [scenarioId, String.toList_ofList, Digest.sha256Hex, String.toList_ofList]
  intro c hc
  obtain ⟨b, -, hc⟩ := List.mem_flatMap.1 (List.mem_of_mem_take hc)
  have hb : b.toNat < 256 := b.toNat_lt
  simp only [Digest.hexByte, List.mem_cons, List.not_mem_nil, or_false] at hc
  rcases hc with rfl | rfl
  · exact hdigit _ (by omega)
  · exact hdigit _ (by omega)

/-- Every text of a plan that comes from a spec stays on its line. -/
theorem onLines_of_resolve {v : Value} {origin : String} {r : Registry}
    (hr : Registry.ofValue v origin = .ok r) {content : String} {source : Option String} {spec : Spec}
    (hspec : Spec.parse content source = .ok spec) {p d : Plan} (hp : ofSpec spec = .ok p)
    (hd : p.resolve r = .ok d) :
    d.source = spec.path ∧ OneLine d.description.toList ∧ ∀ s ∈ d.scenarios, OnLines s := by
  have hlegible := Spec.legible_of_parse hspec
  have hwell := wellFormed_of_resolve hr hd
  have hkept := exists_of_mem_resolve hd
  obtain ⟨scenarios, -, hd⟩ := bind_eq_ok.1 hd
  cases hd
  obtain ⟨rfl, -⟩ := ofSpec_cases hp
  refine ⟨rfl, hlegible.description.oneLine.normalize, fun s hs => ?_⟩
  obtain ⟨s₀, hs₀, hid, htitle, hsteps⟩ := hkept s hs
  obtain ⟨written, hwritten, rfl⟩ := List.mem_map.1 hs₀
  have hscenario := hlegible.scenarios written hwritten
  refine ⟨?_, ?_, fun t ht => ?_, hwell s hs⟩
  · rw [hid]
    exact isNameChar_scenarioId _
  · rw [htitle]
    exact hscenario.title.oneLine.normalize
  · obtain ⟨t₀, ht₀, -, hstatement, -⟩ := hsteps t ht
    obtain ⟨step, hstep, rfl⟩ := List.mem_map.1 ht₀
    rw [hstatement]
    exact (hscenario.steps step hstep).statement.oneLine.normalize

end Plan
/-! A brief project. -/

namespace Project

open Plan

/-- A registry with an action and an outcome, both without holes. -/
def brief : Value :=
  .record [("module", .text "ops"), ("templates", .list [
    .record [("kind", .text "WHEN"), ("pattern", .text "a"), ("operation", .text "a")],
    .record [("kind", .text "THEN"), ("pattern", .text "b"), ("operation", .text "b"),
      ("compare", .text "truthy")]])]

def briefRegistry : Registry :=
  ⟨"ops", [
    ⟨.action, "a", "a", [], none, none, .eq, false⟩,
    ⟨.outcome, "b", "b", [], none, none, .truthy, false⟩],
    none, none, "brief.yaml"⟩

/-- A spec whose texts have in them what closes a docstring. -/
def briefText : String := "; \"\"\"\"\\\n\n; \\\"\"\"\nWHEN a.\nTHEN b."

def briefSpec : Spec :=
  ⟨"\"\"\".gwt", "\"\"\"\"\\", [⟨"\\\"\"\"", [⟨.action, "a", [], 4⟩, ⟨.outcome, "b", [], 5⟩], 3⟩]⟩

theorem ofValue_brief : Registry.ofValue brief "brief.yaml" = .ok briefRegistry :=
  eq_ok_of_toOption (by decide +kernel)

theorem parse_briefText : Spec.parse briefText (some "\"\"\".gwt") = .ok briefSpec :=
  eq_ok_of_toOption (by decide +kernel)

def briefPlan : Plan :=
  ⟨briefSpec.path, briefSpec.description, briefSpec.scenarios.map ofScenario⟩

theorem ofSpec_briefSpec : ofSpec briefSpec = .ok briefPlan := rfl

theorem exists_resolve_briefPlan : ∃ d, briefPlan.resolve briefRegistry = .ok d ∧
    d.description = briefSpec.description ∧ ∃ s, d.scenarios = [s] ∧ s.isResolved = true ∧
      s.steps.map (fun t => (t.kind, t.statement)) = [(.action, "a"), (.outcome, "b")] := by
  have hresolve : (briefPlan.resolve briefRegistry).toOption.map (fun d => (d.description,
        d.scenarios.map fun s => (s.isResolved, s.steps.map fun t => (t.kind, t.statement)))) =
      some (briefSpec.description, [(true, [(.action, "a"), (.outcome, "b")])]) := by decide +kernel
  obtain ⟨d, hd, h⟩ := Option.map_eq_some_iff.1 hresolve
  simp only [Prod.mk.injEq, List.map_eq_singleton_iff] at h
  exact ⟨d, eq_ok_of_toOption hd, h⟩

end Project
end Acceptance

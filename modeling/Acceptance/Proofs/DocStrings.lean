import Acceptance.Proofs.PlacedTests
/-!
What a spec says stays where it was put. Between triple quotes a backslash stands for the character
behind it, and the first three quotes in a row close the text; read like this, the docstrings of a
module and of its tests close at their own closing lines and say what they were written for. A comment
never leaves its line.
-/
namespace Acceptance

variable {raw text cs : List Char}

namespace Text

/-- The text up to the closing quotes, and what is behind them. A backslash may stand before another
and before a quote. -/
def readTriple : List Char → Option (List Char × List Char)
  | '"' :: '"' :: '"' :: cs => some ([], cs)
  | '\\' :: c :: cs =>
    if c = '\\' ∨ c = '"' then (readTriple cs).map fun (text, rest) => (c :: text, rest) else none
  | c :: cs => (readTriple cs).map fun (text, rest) => (c :: text, rest)
  | [] => none

example : readTriple "a\\\"\"\"\\\\\"\"\" b".toList = some ("a\"\"\"\\".toList, " b".toList) := by decide

/-- Whatever comes behind, unless a quote does, `raw` is read as `text`. -/
def ReadsAs (raw text : List Char) : Prop :=
  ∀ rest, rest.head? ≠ some '"' →
    readTriple (raw ++ rest) = (readTriple rest).map fun (more, behind) => (text ++ more, behind)

theorem ReadsAs.append {raw' text' : List Char} (h : ReadsAs raw text) (h' : ReadsAs raw' text')
    (hstart : raw'.head? ≠ some '"') : ReadsAs (raw ++ raw') (text ++ text') := by
  intro rest hrest
  have hnext : (raw' ++ rest).head? ≠ some '"' := by
    cases raw' with
    | nil => exact hrest
    | cons c raw' => exact hstart
  rw [List.append_assoc, h _ hnext, h' _ hrest]
  cases readTriple rest with
  | none => rfl
  | some read => simp

theorem readTriple_cons {c : Char} (hquote : c ≠ '"') (hslash : c ≠ '\\') (cs : List Char) :
    readTriple (c :: cs) = (readTriple cs).map fun (text, rest) => (c :: text, rest) := by
  rw [readTriple]
  · exact fun _ hc => absurd hc hquote
  · exact fun _ _ hc => absurd hc hslash

/-- Text without quotes and backslashes is read as it stands. -/
theorem readTriple_append (h : ∀ c ∈ cs, c ≠ '"' ∧ c ≠ '\\') (rest : List Char) :
    readTriple (cs ++ rest) = (readTriple rest).map fun (more, behind) => (cs ++ more, behind) := by
  induction cs with
  | nil => cases hread : readTriple rest <;> simp [hread]
  | cons c cs ih =>
    obtain ⟨⟨hquote, hslash⟩, hcs⟩ := List.forall_mem_cons.1 h
    rw [List.cons_append, readTriple_cons hquote hslash, ih hcs]
    cases readTriple rest <;> rfl

theorem readsAs_self (h : ∀ c ∈ cs, c ≠ '"' ∧ c ≠ '\\') : ReadsAs cs cs :=
  fun rest _ => readTriple_append h rest

theorem ReadsAs.behind (h : ReadsAs raw text) (hcs : ∀ c ∈ cs, c ≠ '"' ∧ c ≠ '\\') :
    ReadsAs (cs ++ raw) (cs ++ text) := by
  intro rest hrest
  rw [List.append_assoc, readTriple_append hcs, h rest hrest]
  cases readTriple rest with
  | none => rfl
  | some read => simp

end Text

namespace Emission

open Plan Text

/-- Only a quote is written for what starts with a quote, unless there are three. -/
theorem eq_quote_of_docChars {rest ds : List Char} (hrest : rest.head? ≠ some '"')
    (h : docChars cs ++ rest = '"' :: ds) : ∃ cs', cs = '"' :: cs' ∧ ds = docChars cs' ++ rest := by
  unfold docChars at h
  split at h
  · cases h
  · cases h
  · next c cs _ _ =>
    obtain ⟨rfl, rfl⟩ := List.cons.inj h
    exact ⟨cs, rfl, rfl⟩
  · rw [List.nil_append] at h
    rw [h] at hrest
    exact absurd rfl hrest

/-- Text that was made safe is read as it was. -/
theorem readsAs_docChars (cs : List Char) : ReadsAs (docChars cs) cs := by
  intro rest hrest
  fun_induction docChars cs with
  | case1 cs ih =>
    have hescaped (ds : List Char) :
        readTriple ('\\' :: '"' :: ds) = (readTriple ds).map fun (t, b) => ('"' :: t, b) := rfl
    change readTriple ('\\' :: '"' :: '\\' :: '"' :: '\\' :: '"' :: (docChars cs ++ rest)) = _
    rw [hescaped, hescaped, hescaped, ih]
    cases readTriple rest <;> rfl
  | case2 cs ih =>
    change ((readTriple (docChars cs ++ rest)).map fun (t, b) => ('\\' :: t, b)) = _
    rw [ih]
    cases readTriple rest <;> rfl
  | case3 c cs htriple hslash ih =>
    have hone : readTriple (c :: (docChars cs ++ rest)) =
        (readTriple (docChars cs ++ rest)).map fun (t, b) => (c :: t, b) := by
      rw [readTriple]
      · -- three quotes in what was written were three in the text
        intro ds hc hds
        subst hc
        obtain ⟨cs', rfl, hlater⟩ := eq_quote_of_docChars hrest hds
        obtain ⟨cs'', rfl, -⟩ := eq_quote_of_docChars hrest hlater.symm
        exact htriple cs'' rfl rfl
      · intro d ds hc _
        exact hslash hc
    rw [List.cons_append, hone, ih]
    cases readTriple rest <;> rfl
  | case4 => cases hread : readTriple rest <;> simp [hread]

/-- The lines start with `opening` and a docstring that is read as `text`. It closes where the lines
end, whatever lines come behind. -/
def ReadsDoc (opening : String) (ls : List String) (text : String) (rest : List (List Char)) : Prop :=
  ∃ body, joined (ls.map String.toList ++ rest) = opening.toList ++ "\"\"\"".toList ++ body ∧
    readTriple body = some (text.toList, '\n' :: joined rest)

/-- What is between the quotes is read up to the closing line. -/
theorem readTriple_closing (h : ReadsAs raw text) {indent : List Char}
    (hindent : ∀ c ∈ indent, c ≠ '"' ∧ c ≠ '\\') (behind : List Char) :
    readTriple (raw ++ ('\n' :: indent ++ ("\"\"\"".toList ++ behind))) =
      some (text ++ '\n' :: indent, behind) := by
  have hplain : ∀ c ∈ '\n' :: indent, c ≠ '"' ∧ c ≠ '\\' :=
    List.forall_mem_cons.2 ⟨by decide, hindent⟩
  have hclose : readTriple ("\"\"\"".toList ++ behind) = some ([], behind) := rfl
  rw [h _ (by simp), readTriple_append hplain, hclose]
  simp

theorem readsDoc_of {opening text : String} {ls : List String} {rest : List (List Char)}
    {said indent : List Char} (h : ReadsAs raw said) (hindent : ∀ c ∈ indent, c ≠ '"' ∧ c ≠ '\\')
    (hls : joined (ls.map String.toList ++ rest) = opening.toList ++ "\"\"\"".toList ++
      (raw ++ ('\n' :: indent ++ ("\"\"\"".toList ++ '\n' :: joined rest))))
    (htext : text.toList = said ++ '\n' :: indent) : ReadsDoc opening ls text rest := by
  refine ⟨_, hls, ?_⟩
  rw [readTriple_closing h hindent, htext]

/-- The docstring of a module. -/
def docLines (source : String) (description : Option String) : List String :=
  [s!"\"\"\"Generated acceptance tests from {docText source}.", "", generatedMarker] ++
    (description.map fun d => ["", docText d]).getD [] ++ ["\"\"\""]

/-- What the docstring of a module says. -/
def docOf (source : String) (description : Option String) : String :=
  "Generated acceptance tests from " ++ source ++ ".\n\n" ++ generatedMarker ++
    (description.map ("\n\n" ++ ·)).getD "" ++ "\n"

theorem toList_docOf (source : String) (description : Option String) :
    (docOf source description).toList = "Generated acceptance tests from ".toList ++ source.toList ++
      (".\n\n" ++ generatedMarker).toList ++ ((description.map ("\n\n" ++ ·)).getD "").toList ++
        ['\n'] := by
  unfold docOf
  simp only [String.toList_append, List.append_assoc]
  rfl

theorem readsDoc_docLines (source : String) (description : Option String) (rest : List (List Char)) :
    ReadsDoc "" (docLines source description) (docOf source description) rest := by
  have hlead := (readsAs_docChars source.toList).behind
    (forall_mem_of_all (by decide) : ∀ c ∈ "Generated acceptance tests from ".toList, c ≠ '"' ∧ c ≠ '\\')
  have hmark := readsAs_self
    (forall_mem_of_all (by decide) : ∀ c ∈ (".\n\n" ++ generatedMarker).toList, c ≠ '"' ∧ c ≠ '\\')
  have hhead := hlead.append hmark (by decide)
  have htext := toList_docOf source description
  cases description with
  | none =>
    rw [Option.map_none, Option.getD_none, String.toList_empty, List.append_nil] at htext
    exact readsDoc_of hhead (List.forall_mem_nil _) (by simp [docLines, docText, toString]) htext
  | some d =>
    rw [Option.map_some, Option.getD_some, String.toList_append (s := "\n\n")] at htext
    have hdescription := (readsAs_docChars d.toList).behind
      (forall_mem_of_all (by decide) : ∀ c ∈ "\n\n".toList, c ≠ '"' ∧ c ≠ '\\')
    have hall := hhead.append hdescription (by simp)
    exact readsDoc_of hall (List.forall_mem_nil _) (by simp [docLines, docText, toString]) htext

/-- What comes before the docstring of a test. -/
def testOpening (r : Registry) (name : String) : String :=
  let arguments := if usesFixture r then fixtureName else ""
  s!"def {name}({arguments}):\n    "

/-- What the docstring of a test says. -/
def testDoc (title id : String) : String := s!"Scenario: {title}\n\n    Scenario id: {id}\n    "

theorem readsDoc_headLines (r : Registry) (name title : String) {id : String}
    (hid : ∀ c ∈ id.toList, c ≠ '"' ∧ c ≠ '\\') (rest : List (List Char)) :
    ReadsDoc (testOpening r name) (headLines r name title (.text id)) (testDoc title id) rest := by
  have hlead := (readsAs_docChars title.toList).behind
    (forall_mem_of_all (by decide) : ∀ c ∈ "Scenario: ".toList, c ≠ '"' ∧ c ≠ '\\')
  have hshown := (readsAs_self hid).behind
    (forall_mem_of_all (by decide) : ∀ c ∈ "\n\n    Scenario id: ".toList, c ≠ '"' ∧ c ≠ '\\')
  have hall := hlead.append hshown (by simp)
  have hindent : ∀ c ∈ "    ".toList, c ≠ '"' ∧ c ≠ '\\' := forall_mem_of_all (by decide)
  exact readsDoc_of hall hindent (by simp [testOpening, headLines, docText, toString])
    (by simp [testDoc, toString])

/-- The docstring comes first in a module, and its imports are behind it. -/
theorem moduleHead_eq (r : Registry) (source : String) (description : Option String) :
    ∃ more, moduleHead r source description = docLines source description ++ more ∧
      2 ≤ more.length := by
  refine ⟨["", "import pytest", "", s!"import {r.moduleName} as ops", "", ""] ++ fixtureLines r, ?_, ?_⟩
  · simp [moduleHead, docLines]
  · simp only [List.length_append, List.length_cons]
    omega

theorem ne_of_isNameChar {c : Char} (h : Spec.isNameChar c = true) : c ≠ '"' ∧ c ≠ '\\' := by
  constructor
  · rintro rfl
    exact absurd h (by decide)
  · rintro rfl
    exact absurd h (by decide)

variable {r : Registry} {ν : Type} [ToValue ν] {p : Draft ν} {slug : String}
  {ss : List (DraftScenario ν)} {m : TestModule} {qs : List Placed} {ls : List String}
  {s : DraftScenario ν} {q : Placed}

/-- A module starts with its docstring. -/
theorem LaidOut.readsDoc_module (h : LaidOut r p slug ss m qs ls) :
    ∃ rest, Text.lines m.code.toList =
        (docLines p.source (shownDescription p)).map String.toList ++ rest ∧
      ReadsDoc "" (docLines p.source (shownDescription p)) (docOf p.source (shownDescription p)) rest := by
  obtain ⟨more, hhead, hlength⟩ := moduleHead_eq r p.source (shownDescription p)
  have hwhole := h.whole
  rw [moduleLines, hhead, List.append_assoc] at hwhole
  have hlonger : (docLines p.source (shownDescription p)).length ≤ ls.length := by
    have hsize := congrArg List.length hwhole
    simp only [List.length_append, List.length_cons, List.length_nil] at hsize
    omega
  obtain ⟨rest, hrest⟩ := List.prefix_of_prefix_length_le
    ⟨_, hwhole⟩ (List.prefix_append ls ["", ""]) hlonger
  refine ⟨rest.map String.toList, ?_, readsDoc_docLines ..⟩
  rw [h.lines, ← hrest, List.map_append]

/-- A test has its docstring under its definition. -/
theorem LaidOut.readsDoc_test (h : LaidOut r p slug ss m qs ls) (hq : q ∈ qs)
    (htest : TestsOf r s q) (hs : OnLines s) :
    ∃ before rest, Text.lines m.code.toList =
        before ++ (headLines r q.test.name (shownTitle s) (.text s.id)).map String.toList ++ rest ∧
      ReadsDoc (testOpening r q.test.name) (headLines r q.test.name (shownTitle s) (.text s.id))
        (testDoc (shownTitle s) s.id) rest := by
  obtain ⟨before, rest, hls⟩ := h.exists_append hq
  obtain ⟨taken, pairs, -, -, htest⟩ := htest
  obtain ⟨steps, hsteps⟩ : ∃ steps,
      q.test.lines = headLines r q.test.name (shownTitle s) (.text s.id) ++ steps :=
    ⟨_, congrArg TestCode.lines htest⟩
  refine ⟨before.map String.toList, (steps ++ rest).map String.toList, ?_, ?_⟩
  · rw [h.lines, hls, hsteps]
    simp
  · exact readsDoc_headLines r q.test.name (shownTitle s) (fun c hc => ne_of_isNameChar (hs.id c hc)) _

/-- The comment of each step is a line of the module. -/
theorem LaidOut.commentLine_mem (h : LaidOut r p slug ss m qs ls) (hs : s ∈ ss) (hlines : OnLines s)
    {t : DraftStep ν} (ht : t ∈ s.steps) :
    (commentLine (stepData t)).toList ∈ Text.lines m.code.toList := by
  obtain ⟨q, hq, htest⟩ := exists_of_mem_forall₂ h.tests.flip s hs
  obtain ⟨taken, pairs, -, hpairs, htest⟩ := htest
  obtain ⟨before, rest, hls⟩ := h.exists_append hq
  obtain ⟨i, hi⟩ := List.mem_iff_getElem?.1 ht
  obtain ⟨b, -, hpair⟩ := (getElem?_stepLines hpairs hlines.bindings).2 i t hi
  have hmem : commentLine (stepData t) ∈ q.test.lines := by
    rw [congrArg TestCode.lines htest]
    exact List.mem_append_right _ (List.mem_flatMap.2
      ⟨_, List.mem_of_getElem? hpair, List.mem_cons_self⟩)
  rw [h.lines, hls]
  exact List.mem_map_of_mem (by simp [hmem])

end Emission

namespace Project

open Emission Plan Text

/-- What a spec says stays in its comments and docstrings. The comment of a step is one line of the
module. The docstring of the module closes at its own closing line and gives the source and the
description as they are, and so does that of each test with its title and id. -/
theorem spec_text_contained {v : Value} {origin : String} {r : Registry}
    (hr : Registry.ofValue v origin = .ok r) {content : String} {source : Option String} {spec : Spec}
    (hspec : Spec.parse content source = .ok spec) (hpath : OneLine spec.path.toList) {p d : Plan}
    (hp : Plan.ofSpec spec = .ok p) (hd : p.resolve r = .ok d) {ss : List (DraftScenario Nat)}
    (hss : ss ⊆ d.scenarios) {slug : String} {m : TestModule}
    (hm : testModule r d.stored slug (ss.map draftData) = .ok m) :
    m.code.toList = joined (Text.lines m.code.toList) ∧
    (∀ s ∈ ss, ∀ t ∈ s.steps, ∃ line ∈ Text.lines m.code.toList,
      line = s!"    # {t.kind.keyword} {t.statement}.".toList ∧ '\r' ∉ line ∧ '\n' ∉ line) ∧
    (∃ rest, Text.lines m.code.toList =
        (docLines spec.path (shownDescription d)).map String.toList ++ rest ∧
      ReadsDoc "" (docLines spec.path (shownDescription d)) (docOf spec.path (shownDescription d)) rest) ∧
    List.Forall₂ (fun s test => ∃ before rest, Text.lines m.code.toList =
        before ++ (headLines r test.name (shownTitle s) (.text s.id)).map String.toList ++ rest ∧
      ReadsDoc (testOpening r test.name) (headLines r test.name (shownTitle s) (.text s.id))
        (testDoc (shownTitle s) s.id) rest)
      ss m.tests := by
  obtain ⟨hsource, hdescription, hall⟩ := onLines_of_resolve hr hspec hp hd
  have hlines : ∀ s ∈ ss, OnLines s := fun s hs => hall s (hss hs)
  obtain ⟨qs, ls, h⟩ := exists_laidOut (Registry.named_of_ofValue hr) (hsource ▸ hpath) hdescription
    hlines hm
  refine ⟨?_, fun s hs t ht => ?_, ?_, ?_⟩
  · rw [h.lines, h.code]
  · have hone := oneLine_commentLine ((hlines s hs).statements t ht)
    refine ⟨_, h.commentLine_mem hs (hlines s hs) ht, rfl, fun hmem => ?_, fun hmem => ?_⟩
    · exact absurd (hone _ hmem) (by decide)
    · exact absurd (hone _ hmem) (by decide)
  · rw [← hsource]
    exact h.readsDoc_module
  · have htests : m.tests = qs.map (·.test) := by
      rw [h.module]
      rfl
    rw [htests, List.forall₂_map_right_iff]
    exact (forall₂_mem h.tests).imp fun s q ⟨hs, hq, htest⟩ => h.readsDoc_test hq htest (hlines s hs)

theorem spec_text_contained_brief : Registry.ofValue brief "brief.yaml" = .ok briefRegistry ∧
    Spec.parse briefText (some "\"\"\".gwt") = .ok briefSpec ∧ OneLine briefSpec.path.toList ∧
    ofSpec briefSpec = .ok briefPlan ∧ ∃ d, briefPlan.resolve briefRegistry = .ok d ∧
      ∃ m, testModule briefRegistry d.stored "brief" (d.scenarios.map draftData) = .ok m ∧
        ∃ rest, ReadsDoc "" (docLines "\"\"\".gwt" (some "\"\"\"\"\\"))
          (docOf "\"\"\".gwt" (some "\"\"\"\"\\")) rest := by
  have hpath : OneLine briefSpec.path.toList := by decide
  obtain ⟨d, hd, hdescription, s, hs, hresolved, -⟩ := exists_resolve_briefPlan
  have hmodule := testModule_of_complete briefRegistry d "brief" (complete_of_resolve ofValue_brief hd)
  rw [if_pos (by simp [hs, hresolved])] at hmodule
  obtain ⟨m, hm, -⟩ := hmodule
  obtain ⟨-, -, ⟨rest, -, hdoc⟩, -⟩ := spec_text_contained ofValue_brief parse_briefText hpath
    ofSpec_briefSpec hd (List.Subset.refl _) hm
  rw [shownDescription, hdescription] at hdoc
  exact ⟨ofValue_brief, parse_briefText, hpath, ofSpec_briefSpec, d, hd, m, hm, rest, hdoc⟩

end Project
end Acceptance

import Mathlib.Logic.Relation
import Acceptance.Proofs.PlacedTests
/-!
Ids of scenarios. The id of a scenario is a digest of its statements, and stays so when a plan is
resolved, written and read back, as often as one likes. The text that is digested tells the statements,
so two scenarios that say different things share an id only where their digests do.
-/
namespace Acceptance

variable {d : Plan.Stored} {p : Plan} {a : List (Kind × String)}

namespace Plan

open Text Value

variable {τ η π ν σ θ ρ μ τ' η' π' ν' : Type}

/-! Outlines. -/

/-- The kinds and statements of a scenario, in their order. -/
def Scenario.told (s : Scenario τ η π ν) : List (Kind × τ) := s.steps.map fun t => (t.kind, t.statement)

/-- What the scenarios of a plan say, each under its id. -/
def Document.outline (d : Document τ η π ν) : List (τ × List (Kind × τ)) :=
  d.scenarios.map fun s => (s.id, s.told)

theorem mem_outline {d : Document τ η π ν} {s : Scenario τ η π ν} (h : s ∈ d.scenarios) :
    (s.id, s.told) ∈ d.outline :=
  List.mem_map_of_mem (f := fun s : Scenario τ η π ν => (s.id, s.told)) h

theorem outline_map (d : Document τ η π ν) (f : τ → σ) (e : η → θ) (g : π → ρ) (h : ν → μ) :
    (d.map f e g h).outline = d.outline.map fun o => (f o.1, o.2.map fun t => (t.1, f t.2)) := by
  simp [Document.outline, Document.map, Scenario.map, Scenario.told, Step.map, Function.comp_def]

/-- The outline tells whether the steps are in order. -/
theorem inOrder_iff_outline (d : Document τ η π ν) :
    d.InOrder ↔ ∀ o ∈ d.outline, Kind.InOrder (o.2.map (·.1)) := by
  simp [Document.InOrder, Document.outline, Scenario.told, Function.comp_def]

theorem outline_of_resolve {r : Registry} {p q : Draft ν} (h : p.resolve r = .ok q) :
    q.outline = p.outline := by
  have hstep (t u : DraftStep ν) (htu : t.resolve r = .ok u) :
      (u.kind, u.statement) = (t.kind, t.statement) := by
    obtain ⟨finding, -, htu⟩ := bind_eq_ok.1 htu
    cases htu
    rfl
  have hscenario (s t : DraftScenario ν) (hst : s.resolve r = .ok t) : (t.id, t.told) = (s.id, s.told) := by
    obtain ⟨steps, hsteps, hst⟩ := bind_eq_ok.1 hst
    cases hst
    exact congrArg (s.id, ·) (map_eq_of_mapM hstep hsteps)
  obtain ⟨scenarios, hscenarios, h⟩ := bind_eq_ok.1 h
  cases h
  exact map_eq_of_mapM hscenario hscenarios

/-! Plans that come back from their text. -/

theorem Document.map_map (d : Document τ η π ν) (f : τ → σ) (e : η → θ) (g : π → ρ) (h : ν → μ)
    (f' : σ → τ') (e' : θ → η') (g' : ρ → π') (h' : μ → ν') :
    (d.map f e g h).map f' e' g' h' = d.map (f' ∘ f) (e' ∘ e) (g' ∘ g) (h' ∘ h) := by
  have hresolution (a : Resolution τ η π) :
      (a.map f e g).map f' e' g' = a.map (f' ∘ f) (e' ∘ e) (g' ∘ g) := by
    cases a <;> simp [Resolution.map, Binding.map]
  simp [Document.map, Scenario.map, Step.map, hresolution]

section Back

variable (back : Binary64 → Binary64)

theorem exists_phraseBack (e : Phrase) :
    ∃ e' : Phrase, (Value.ofPhrase e).arranged (Json.leafBack back) = .ofPhrase e' := by
  unfold Value.ofPhrase Value.ofPoints
  split
  · next s hs => exact ⟨e, by rw [hs]; rfl⟩
  · exact ⟨⟨Json.rejoin e.points⟩, rfl⟩

theorem exists_literalBack (l : Literal) : ∃ l' : Literal, l'.type = l.type ∧
    (Value.ofLiteral l).arranged (Json.leafBack back) = .ofLiteral l' := by
  cases l with
  | text s => exact ⟨.text s, rfl, rfl⟩
  | int n => exact ⟨.int n, rfl, rfl⟩
  | boolean b => exact ⟨.boolean b, rfl, rfl⟩
  | float x => exact ⟨.float (back x), rfl, rfl⟩
  | torn ps =>
    change ∃ l' : Literal, l'.type = .text ∧ Value.ofPoints (Json.rejoin ps) = .ofLiteral l'
    unfold Value.ofPoints
    split
    · next s _ => exact ⟨.text s, rfl, rfl⟩
    · exact ⟨.torn _, rfl, rfl⟩

/-- Texts of a plan come back as they were, and all else as something of its kind. -/
theorem exists_draft_rearranged (p : Plan) : ∃ q : Plan, q.outline = p.outline ∧
    p.stored.rearranged (Value.arranged (Json.leafBack back)) = q.stored := by
  choose phrase hphrase using exists_phraseBack back
  choose literal htype hliteral using exists_literalBack back
  have hparameter (a : Parameter) : (StoredParameter.ofParameter a).map
      (Value.arranged (Json.leafBack back)) = .ofParameter ⟨a.name, literal a.literal⟩ := by
    simp only [StoredParameter.ofParameter, StoredParameter.map, htype, hliteral]
    rfl
  refine ⟨p.map id phrase (fun a => ⟨a.name, literal a.literal⟩) id, ?_, ?_⟩
  · simp [outline_map]
  · rw [Document.rearranged, Document.stored, Document.stored, Document.map_map, Document.map_map]
    congr 1
    · funext e
      exact hphrase e
    · funext a
      exact hparameter a

end Back

/-! Passes over a plan. -/

/-- What is done to plans: a registry resolves the statements, or the plan is stored, as data or as text,
and read back. -/
inductive Pass : Stored → Stored → Prop
  | resolve {r : Registry} {p q : Plan} (h : p.resolve r = .ok q) : Pass p.stored q.stored
  | data {d e : Stored} (h : ofValue (record d) = .ok e) : Pass d e
  | text {d e : Stored} {file : String} {v : Value} (hwrite : write d = .ok file)
    (hread : Json.read file = .ok v) (h : ofValue v = .ok e) : Pass d e

theorem isShowable_of_write {file : String} (h : write d = .ok file) :
    (record d).isShowable = true ∧ file = text d := by
  unfold write at h
  split at h
  · next hshow =>
    cases h
    exact ⟨hshow, rfl⟩
  · cases h

/-- A plan that can be written is read back from its text as a plan with the same outline. -/
theorem exists_reload : ∀ p : Plan, p.stored.InOrder → (record p.stored).isShowable = true →
    ∃ v, ∃ q : Plan, Json.read (text p.stored) = .ok v ∧ ofValue v = .ok q.stored ∧
      q.outline = p.outline := by
  obtain ⟨back, hback⟩ := Json.exists_read_write
  intro p horder hshow
  obtain ⟨q, houtline, hq⟩ := exists_draft_rearranged back p
  refine ⟨_, q, hback _ (plain_stored p) hshow, ?_, houtline⟩
  rw [← hq]
  exact ofValue_rearranged (rearranges_arranged rfl (fun _ => rfl) fun _ => rfl) horder

theorem outline_stored (p : Plan) : p.stored.outline =
    p.outline.map fun o => (.text o.1, o.2.map fun t => (t.1, .text t.2)) := outline_map ..

/-- A pass leaves the outline alone. -/
theorem Pass.keeps_outline {e : Stored} (h : Pass d e) (hdraft : ∃ p : Plan, d = p.stored)
    (horder : d.InOrder) : (∃ q : Plan, e = q.stored) ∧ e.outline = d.outline := by
  cases h with
  | @resolve r p q h => exact ⟨⟨q, rfl⟩, by rw [outline_stored, outline_stored, outline_of_resolve h]⟩
  | data h =>
    rw [ofValue_record horder] at h
    cases h
    exact ⟨hdraft, rfl⟩
  | text hwrite hread h =>
    obtain ⟨p, rfl⟩ := hdraft
    obtain ⟨hshow, rfl⟩ := isShowable_of_write hwrite
    obtain ⟨v, q, hread', hv, houtline⟩ := exists_reload p horder hshow
    cases hread.symm.trans hread'
    cases h.symm.trans hv
    exact ⟨⟨q, rfl⟩, by rw [outline_stored, outline_stored, houtline]⟩

/-- So do any number of passes. -/
theorem outline_of_passes (hp : p.InOrder) (h : Relation.ReflTransGen Pass p.stored d) :
    (∃ q : Plan, d = q.stored) ∧ d.outline = p.stored.outline := by
  induction h with
  | refl => exact ⟨⟨p, rfl⟩, rfl⟩
  | tail _ hpass ih =>
    obtain ⟨hdraft, houtline⟩ := ih
    have horder := inOrder_stored hp
    rw [inOrder_iff_outline, ← houtline, ← inOrder_iff_outline] at horder
    obtain ⟨hdraft', houtline'⟩ := hpass.keeps_outline hdraft horder
    exact ⟨hdraft', houtline'.trans houtline⟩

/-! The text that is digested. -/

/-- A statement behind its keyword. -/
def saidChars (t : Kind × String) : List Char := t.1.keyword.toList ++ ' ' :: t.2.toList

theorem saidChars_injective : Function.Injective saidChars := by
  intro t u h
  obtain ⟨hkind, hstatement⟩ := Emission.keyword_append_inj h
  exact Prod.ext hkind (String.toList_inj.1 hstatement)

theorem toList_idText (a : List (Kind × String)) :
    (idText a).toList = ['\n'].intercalate (a.map saidChars) := by
  rw [idText, String.toList_intercalate, List.map_map]
  congr 1
  refine List.map_congr_left fun t _ => ?_
  simp [saidChars, toString]

theorem idText_eq_empty : (idText a).toList = [] ↔ a = [] := by
  rw [toList_idText]
  cases a with
  | nil => simp
  | cons t a => simp [Json.intercalate_cons, saidChars]

/-- The lines of the text are the statements, each behind its keyword. -/
theorem splitOn_idText (hne : a ≠ []) (h : ∀ t ∈ a, OneLine t.2.toList) :
    (idText a).toList.splitOn '\n' = a.map saidChars := by
  rw [toList_idText]
  apply List.splitOn_intercalate
  · refine List.forall_mem_map.2 fun t ht hmem => ?_
    have hone : OneLine (saidChars t) :=
      oneLine_append.2 ⟨Emission.oneLine_keyword t.1, oneLine_cons.2 ⟨rfl, h t ht⟩⟩
    exact absurd (hone _ hmem) (by decide)
  · simpa using hne

theorem idText_inj {b : List (Kind × String)} (ha : ∀ t ∈ a, OneLine t.2.toList)
    (hb : ∀ t ∈ b, OneLine t.2.toList) (h : idText a = idText b) : a = b := by
  have hempty : a = [] ↔ b = [] := by rw [← idText_eq_empty, ← idText_eq_empty, h]
  by_cases hnil : a = []
  · rw [hnil, hempty.1 hnil]
  · apply List.map_injective_iff.2 saidChars_injective
    rw [← splitOn_idText hnil ha, ← splitOn_idText (mt hempty.2 hnil) hb, h]

/-! Ids. -/

/-- The text that the id of a stored scenario is made from. -/
def digested (s : StoredScenario) : String :=
  idText (s.told.map fun t => (t.1, t.2.display))

/-- Two texts whose digests begin alike. -/
def Collide (a b : String) : Prop :=
  a ≠ b ∧ (Digest.sha256Hex a).toList.take 16 = (Digest.sha256Hex b).toList.take 16

theorem digested_of_told {s : StoredScenario} {said : List (Kind × String)}
    (h : s.told = said.map fun t => (t.1, .text t.2)) : digested s = idText said := by
  simp [digested, h, Function.comp_def, Value.display]

theorem recomputedId_eq (s : StoredScenario) :
    recomputedId s = String.ofList ((Digest.sha256Hex (digested s)).toList.take 16) := by
  rw [recomputedId, scenarioId, digested, Scenario.told, List.map_map]
  rfl

theorem recomputedId_eq_iff {s s' : StoredScenario} : recomputedId s = recomputedId s' ↔
    digested s = digested s' ∨ Collide (digested s) (digested s') := by
  rw [recomputedId_eq, recomputedId_eq, String.ofList_inj]
  constructor
  · intro h
    by_cases hsame : digested s = digested s'
    · exact .inl hsame
    · exact .inr ⟨hsame, h⟩
  · rintro (hsame | hcollide)
    · rw [hsame]
    · exact hcollide.2

theorem outline_of_ofSpec {content : String} {source : Option String} {spec : Spec}
    (hspec : Spec.parse content source = .ok spec) (hp : ofSpec spec = .ok p) :
    ∀ o ∈ p.outline, o.1 = scenarioId o.2 ∧ ∀ t ∈ o.2, OneLine t.2.toList := by
  obtain ⟨rfl, -⟩ := ofSpec_cases hp
  have hlegible := Spec.legible_of_parse hspec
  refine List.forall_mem_map.2 (List.forall_mem_map.2 fun s hs => ⟨rfl, ?_⟩)
  refine List.forall_mem_map.2 (List.forall_mem_map.2 fun t ht => ?_)
  exact ((hlegible.scenarios s hs).steps t ht).statement.oneLine.normalize

/-- What a scenario says after any number of passes, and under which id. -/
theorem exists_told_of_passes {content : String} {source : Option String} {spec : Spec}
    (hspec : Spec.parse content source = .ok spec) (hp : ofSpec spec = .ok p)
    (hd : Relation.ReflTransGen Pass p.stored d) : ∀ s ∈ d.scenarios, ∃ said : List (Kind × String),
      (∀ t ∈ said, OneLine t.2.toList) ∧ s.told = (said.map fun t => (t.1, .text t.2)) ∧
      s.id = .text (recomputedId s) := by
  intro s hs
  obtain ⟨-, houtline⟩ := outline_of_passes (inOrder_of_ofSpec hp) hd
  have hmem := mem_outline hs
  rw [houtline, outline_stored] at hmem
  obtain ⟨o, ho, hsame⟩ := List.mem_map.1 hmem
  obtain ⟨hid, hsaid⟩ := outline_of_ofSpec hspec hp o ho
  obtain ⟨hid', htold⟩ := Prod.mk.inj hsame
  refine ⟨o.2, hsaid, htold.symm, ?_⟩
  rw [recomputedId_eq, digested_of_told htold.symm, ← hid', hid]
  rfl

/-- Ids tell statements, and nothing else: an id is made from what its scenario says, whatever was done
to the plan since it was read, and two scenarios share an id only if they say the same or their digests
begin alike. -/
theorem ids_tell_statements {content content' : String} {source source' : Option String}
    {spec spec' : Spec} (hspec : Spec.parse content source = .ok spec)
    (hspec' : Spec.parse content' source' = .ok spec') {p p' : Plan} (hp : ofSpec spec = .ok p)
    (hp' : ofSpec spec' = .ok p') {d d' : Stored} (hd : Relation.ReflTransGen Pass p.stored d)
    (hd' : Relation.ReflTransGen Pass p'.stored d') :
    ((∃ q : Plan, d = q.stored) ∧ d.outline = p.stored.outline) ∧
    ∀ s ∈ d.scenarios, s.id = .text (recomputedId s) ∧
      ∀ s' ∈ d'.scenarios, (digested s = digested s' ↔ s.told = s'.told) ∧
        (s.id = s'.id ↔ s.told = s'.told ∨ Collide (digested s) (digested s')) := by
  refine ⟨outline_of_passes (inOrder_of_ofSpec hp) hd, fun s hs => ?_⟩
  obtain ⟨said, hline, htold, hid⟩ := exists_told_of_passes hspec hp hd s hs
  refine ⟨hid, fun s' hs' => ?_⟩
  obtain ⟨said', hline', htold', hid'⟩ := exists_told_of_passes hspec' hp' hd' s' hs'
  have hdigested : digested s = digested s' ↔ s.told = s'.told := by
    constructor
    · intro h
      rw [digested_of_told htold, digested_of_told htold'] at h
      rw [htold, htold', idText_inj hline hline' h]
    · intro h
      rw [digested, digested, h]
  refine ⟨hdigested, ?_⟩
  rw [hid, hid', Value.text.injEq, recomputedId_eq_iff, hdigested]

open Project

/-- The brief plan can be resolved, written and read back. -/
theorem exists_passes_briefPlan : ∃ q : Plan, briefPlan.resolve briefRegistry = .ok q ∧
    (∀ s ∈ q.scenarios, s.isResolved = true) ∧
    ∃ d, Relation.ReflTransGen Pass briefPlan.stored d ∧ Pass q.stored d := by
  have hresolve : (briefPlan.resolve briefRegistry).toOption.map (fun q =>
      ((record q.stored).isShowable, q.scenarios.all (·.isResolved))) = some (true, true) := by
    decide +kernel
  obtain ⟨q, hq, hboth⟩ := Option.map_eq_some_iff.1 hresolve
  obtain ⟨hshow, hresolved⟩ := Prod.mk.inj hboth
  have hq := eq_ok_of_toOption hq
  have horder := inOrder_stored (inOrder_of_resolve (inOrder_of_ofSpec ofSpec_briefSpec) hq)
  obtain ⟨v, q', hread, hv, -⟩ := exists_reload q horder hshow
  have hback : Pass q.stored q'.stored := .text (if_pos hshow) hread hv
  exact ⟨q, hq, List.all_eq_true.1 hresolved, q'.stored,
    .tail (.single (.resolve hq)) hback, hback⟩

/-- A text that says what the brief one does, with another title, another space and one more comment. -/
def spacedText : String := "; apart\nWHEN  a.\n; next\nTHEN b."

def spacedSpec : Spec :=
  ⟨"<string>", "", [⟨"apart", [⟨.action, "a", [], 2⟩, ⟨.outcome, "b", [], 4⟩], 1⟩]⟩

def spacedPlan : Plan := ⟨"<string>", "", spacedSpec.scenarios.map ofScenario⟩

theorem ids_tell_statements_brief : Spec.parse briefText (some "\"\"\".gwt") = .ok briefSpec ∧
    Spec.parse spacedText none = .ok spacedSpec ∧ ofSpec briefSpec = .ok briefPlan ∧
    ofSpec spacedSpec = .ok spacedPlan ∧
    ∃ q : Plan, briefPlan.resolve briefRegistry = .ok q ∧ (∀ s ∈ q.scenarios, s.isResolved = true) ∧
      ∃ d s s', Pass q.stored d ∧ d.scenarios = [s] ∧ spacedPlan.stored.scenarios = [s'] ∧
        s.told = [(.action, .text "a"), (.outcome, .text "b")] ∧ s.id = .text (recomputedId s) ∧
        s.id = s'.id := by
  have hparse : Spec.parse spacedText none = .ok spacedSpec := eq_ok_of_toOption (by decide +kernel)
  have hplan : ofSpec spacedSpec = .ok spacedPlan := rfl
  obtain ⟨q, hq, hresolved, d, hd, hback⟩ := exists_passes_briefPlan
  obtain ⟨⟨-, houtline⟩, hids⟩ :=
    ids_tell_statements parse_briefText hparse ofSpec_briefSpec hplan hd .refl
  have hsaid : d.outline.map (·.2) = [[(.action, .text "a"), (.outcome, .text "b")]] := by
    rw [houtline]
    rfl
  rw [Document.outline, List.map_map] at hsaid
  obtain ⟨s, hs, htold⟩ := List.map_eq_singleton_iff.1 hsaid
  obtain ⟨hid, hsame⟩ := hids s (hs ▸ List.mem_singleton_self s)
  refine ⟨parse_briefText, hparse, ofSpec_briefSpec, hplan, q, hq, hresolved, d, s, _, hback, hs, rfl,
    htold, hid, ?_⟩
  exact (hsame _ (List.mem_singleton_self _)).2.2 (.inl htold)

end Plan
end Acceptance

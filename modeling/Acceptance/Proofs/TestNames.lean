import Acceptance.Proofs.PlacedTests
/-!
Names of tests. A name is made of a slug and the start of an id. Where it is taken, the numbers from 2
on are tried behind it, and since only finitely many names are taken, one of them is free. So no two
tests of a module share a name, and none of them loses its entry in the manifest.
-/
namespace Acceptance.Emission

open Plan Text

variable {r : Registry} {taken : List String} {name found : String} {n : Nat}

/-! The search for a name. -/

/-- What the search tries as its `n`-th name. -/
def candidate (name : String) (n : Nat) : String := if n = 1 then name else s!"{name}_{n}"

/-- The search that stands at the `n`-th name comes to an end and has found a name. -/
inductive Settles (taken : List String) (name : String) : Nat → String → Prop
  | free {n : Nat} (h : candidate name n ∉ taken) : Settles taken name n (candidate name n)
  | next {n : Nat} {found : String} (h : candidate name n ∈ taken)
      (hrest : Settles taken name (n + 1) found) : Settles taken name n found

theorem Settles.unique (h : Settles taken name n found) {other : String}
    (h' : Settles taken name n other) : found = other := by
  induction h with
  | free hfree =>
    cases h' with
    | free _ => rfl
    | next htaken _ => exact absurd htaken hfree
  | next htaken _ ih =>
    cases h' with
    | free hfree => exact absurd htaken hfree
    | next _ hrest => exact ih hrest

theorem settles_add {k : Nat} (htaken : ∀ j < k, candidate name (n + j) ∈ taken)
    (hfree : candidate name (n + k) ∉ taken) : Settles taken name n (candidate name (n + k)) := by
  induction k generalizing n with
  | zero => exact .free hfree
  | succ k ih =>
    have hshift (j : Nat) : n + (j + 1) = n + 1 + j := by omega
    rw [hshift] at hfree ⊢
    refine .next (htaken 0 (Nat.succ_pos k)) (ih (fun j hj => ?_) hfree)
    rw [← hshift]
    exact htaken (j + 1) (Nat.succ_lt_succ hj)

theorem numbered_eq_map_candidate (name : String) (count : Nat) :
    numbered name count = (List.range (count + 1)).map fun i => candidate name (1 + i) := by
  rw [List.range_succ_eq_map, List.map_cons, List.map_map]
  refine congrArg (name :: ·) (List.map_congr_left fun i _ => ?_)
  have hsucc : 1 + (i + 1) = i + 2 := by omega
  rw [Function.comp_apply, candidate, if_neg (by omega), Nat.succ_eq_add_one, hsucc]

/-- As many numbers as there are taken names are enough, so the search always ends. -/
theorem settles_freshName (taken : List String) (name : String) :
    Settles taken name 1 (freshName taken name) := by
  have hnew := freshName_not_mem taken name
  unfold freshName at hnew ⊢
  cases hfind : (numbered name taken.length).find? (!taken.contains ·) with
  | none =>
    have hall := List.find?_eq_none.1 hfind name List.mem_cons_self
    rw [hfind] at hnew
    exact absurd (by simpa using hall) hnew
  | some found =>
    obtain ⟨-, i, hi, hfound, hbefore⟩ := List.find?_eq_some_iff_getElem.1 hfind
    rw [hfind] at hnew
    simp only [numbered_eq_map_candidate, List.getElem_map, List.getElem_range] at hfound hbefore
    subst hfound
    refine settles_add (fun j hj => ?_) hnew
    simpa using hbefore j hj

/-! What a name is made of. -/

/-- The name of a test before it is known whether it is taken. -/
def plainName (slug id : String) : String := s!"test_{slug}_{String.ofList (id.toList.take 8)}"

/-- A name for a scenario with an id. -/
def IsTestName (id name : String) : Prop :=
  ∃ slug : String, IsSlug slug.toList ∧
    (name = plainName slug id ∨ ∃ n, 2 ≤ n ∧ name = s!"{plainName slug id}_{n}")

theorem isTestName_of_testName {s : StoredScenario} {id : String} (hid : s.id = .text id)
    (h : testName taken s = .ok name) : IsTestName id name := by
  obtain ⟨source, -, h⟩ := bind_eq_ok.1 h
  obtain ⟨start, hstart, h⟩ := bind_eq_ok.1 h
  rw [hid] at hstart
  cases hstart
  cases h
  refine ⟨testSlug source, isSlug_testSlug source, ?_⟩
  rcases List.mem_cons.1 (freshName_mem_numbered taken (plainName (testSlug source) id)) with h | h
  · exact .inl h
  · obtain ⟨i, -, hi⟩ := List.mem_map.1 h
    exact .inr ⟨i + 2, Nat.le_add_left 2 i, hi.symm⟩

/-! The tests of a module. -/

/-- The test is the one of the scenario and is named for it. -/
def NamedFor (s : StoredScenario) (t : TestCode) : Prop :=
  t.scenarioId = s.id ∧ ∀ id, s.id = .text id → IsTestName id t.name

/-- The entry of a manifest is the one of the test. -/
def Describes (t : TestCode) (entry : String × Value) : Prop :=
  entry.1 = t.name ∧ entry.2.item "scenario_id" = .ok t.scenarioId ∧ entry.2.item "title" = .ok t.title

theorem namedFor_of_testCode {s : StoredScenario} {t : TestCode} (h : testCode r taken s = .ok t) :
    NamedFor s t := by
  obtain ⟨hname, hid⟩ := named_of_testCode h
  exact ⟨hid, fun id htext => isTestName_of_testName htext hname⟩

theorem namedFor_placedFrom {ss : List StoredScenario} {qs : List Placed}
    (h : placedFrom r taken n ss = .ok qs) : List.Forall₂ NamedFor ss (qs.map (·.test)) := by
  induction ss generalizing taken n qs with
  | nil =>
    cases h
    exact .nil
  | cons s ss ih =>
    obtain ⟨test, htest, h⟩ := bind_eq_ok.1 h
    obtain ⟨later, hlater, h⟩ := bind_eq_ok.1 h
    cases h
    exact .cons (namedFor_of_testCode htest) (ih hlater)

theorem exists_placed {plan : Stored} {slug : String} {scenarios : List StoredScenario} {m : TestModule}
    (h : testModule r plan slug scenarios = .ok m) : ∃ n qs, placedFrom r [] n scenarios = .ok qs ∧
      m.tests = qs.map (·.test) ∧ m.manifest = manifestOf (moduleFile slug) plan.source qs := by
  obtain ⟨source, -, h⟩ := bind_eq_ok.1 h
  dsimp only at h
  split at h
  all_goals
    obtain ⟨description, -, h⟩ := bind_eq_ok.1 h
    obtain ⟨qs, hqs, h⟩ := bind_eq_ok.1 h
    cases h
    exact ⟨_, qs, hqs, rfl, rfl⟩

/-- Names tell tests apart, whatever the titles and ids of the scenarios are. -/
theorem test_names_distinct {plan : Stored} {slug : String} {scenarios : List StoredScenario}
    {m : TestModule} (h : testModule r plan slug scenarios = .ok m) :
    (m.tests.map (·.name)).Nodup ∧
    (∃ entries, m.manifest.item "tests" = .ok (.record entries) ∧
      List.Forall₂ Describes m.tests entries) ∧
    List.Forall₂ NamedFor scenarios m.tests ∧
    ∀ taken name found, Settles taken name 1 found ↔ found = freshName taken name := by
  obtain ⟨n, qs, hqs, htests, hmanifest⟩ := exists_placed h
  rw [htests, hmanifest]
  refine ⟨?_, ⟨qs.map (·.entry), rfl, ?_⟩, namedFor_placedFrom hqs, fun taken name found => ?_⟩
  · rw [List.map_map]
    exact (names_placedFrom hqs).1
  · rw [List.forall₂_map_left_iff, List.forall₂_map_right_iff, List.forall₂_same]
    exact fun q _ => ⟨rfl, rfl, rfl⟩
  · have hends := settles_freshName taken name
    exact ⟨fun hfound => hfound.unique hends, fun hfound => hfound ▸ hends⟩

/-- A scenario without steps. -/
def bareScenario (title id : String) : StoredScenario := ⟨.text id, .text title, [], .int 1⟩

/-- The number that tells the second test from the first makes it clash with the third. -/
theorem test_names_distinct_clash : ∃ m,
    testModule Project.briefRegistry ⟨.text "a.gwt", .text "", []⟩ "a"
      [bareScenario "Sum" "1", bareScenario "Sum" "1", bareScenario "sum 1" "2"] = .ok m ∧
    m.tests.map (·.name) = ["test_sum_1", "test_sum_1_2", "test_sum_1_2_2"] ∧
    (m.tests.map (·.name)).Nodup := by
  have hnames : (testModule Project.briefRegistry ⟨.text "a.gwt", .text "", []⟩ "a"
      [bareScenario "Sum" "1", bareScenario "Sum" "1", bareScenario "sum 1" "2"]).toOption.map
        (fun m => m.tests.map (·.name)) =
      some ["test_sum_1", "test_sum_1_2", "test_sum_1_2_2"] := by decide +kernel
  obtain ⟨m, hm, hnames⟩ := Option.map_eq_some_iff.1 hnames
  have hm := eq_ok_of_toOption hm
  exact ⟨m, hm, hnames, (test_names_distinct hm).1⟩

end Acceptance.Emission

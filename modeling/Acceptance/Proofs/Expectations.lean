import Acceptance.Proofs.AcceptedRegistry
import Acceptance.Proofs.PatternFit
import Acceptance.Resolution.Resolve
/-!
Expected values. A registry that has been read names one for each outcome that is compared with
something, and it is there in every binding that is made of such an outcome.
-/
namespace Acceptance

variable {pattern : Phrase} {params v : Value} {holes : List (String × HoleType)} {t : Template}
  {statement : String} {captured : List (String × String)} {b : Binding String Parameter}

/-- The outcome has what it is compared with. -/
def Binding.Complete {τ π : Type} (k : Kind) (b : Binding τ π) : Prop :=
  k = .outcome → b.comparison.takesExpected = true → b.expected.isSome = true

/-- Every step that is resolved has what it is compared with. -/
def Plan.Step.Complete {τ η π ν : Type} (s : Step τ η π ν) : Prop :=
  ∀ b, s.resolution = .resolved b → b.Complete s.kind

theorem Phrase.visible_of_text? {p : Phrase} {s : String} (h : p.text? = some s) :
    p.visible = s := by
  simp only [text?, Text.ofPoints?] at h
  split at h
  · cases h
  · next hno =>
    rw [← Option.some.inj h, visible, Text.visible]
    congr 1
    apply List.map_congr_left
    intro n hn
    have hwhole : Text.isHalf n = false := by
      cases hhalf : Text.isHalf n with
      | false => rfl
      | true => exact absurd (List.any_eq_true.2 ⟨n, hn, hhalf⟩) hno
    rw [hwhole]
    rfl

variable {text name : String}

namespace Registry

theorem length_of_splits {ps : List Piece} {cs : List Char} {caps : List (List Char)}
    (h : Splits ps cs caps) : (holeNames ps).length = caps.length := by
  induction h with
  | nil => rfl
  | char _ ih => exact ih
  | hole _ _ ih => exact congrArg (· + 1) ih

/-- The captures go by the names of the holes, one for each. -/
theorem names_of_captures? {pattern : String} {found : List (String × String)}
    (h : captures? pattern text = some found) : found.map (·.1) = holeNames (pieces pattern) := by
  obtain ⟨caps, hfit, rfl⟩ := Option.map_eq_some_iff.1 h
  have hlength := length_of_splits (splits_of_fit hfit)
  apply List.map_fst_zip
  rw [List.length_map, hlength]

/-- How the holes of a pattern were read. -/
theorem holesOf_eq_ok (h : holesOf pattern params = .ok holes) :
    (repeated (holeNames (pieces pattern.visible))).isEmpty = true ∧
      ((holeNames (pieces pattern.visible)).filter (reservedWords.contains ·)) = [] ∧
      (holeNames (pieces pattern.visible)).mapM (holeTypeOf (params.entries?.getD [])) = .ok holes := by
  unfold holesOf at h
  extract_lets names reserved rest at h
  have h : rest (params.entries?.getD []) = .ok holes := by
    split at h
    · next es hes =>
      obtain ⟨_, hsame, h⟩ := bind_eq_ok.1 h
      cases hsame
      rw [hes]
      exact h
    · next hnone =>
      split at h
      · cases h
      · obtain ⟨_, hsame, h⟩ := bind_eq_ok.1 h
        cases hsame
        rw [hnone]
        exact h
  obtain ⟨⟨⟩, hrepeated, h⟩ := bind_eq_ok.1 h
  obtain ⟨⟨⟩, hreserved, h⟩ := bind_eq_ok.1 h
  obtain ⟨undeclared, -, h⟩ := bind_eq_ok.1 h
  obtain ⟨-, -, h⟩ := bind_eq_ok.1 h
  have hnone : reserved = [] := List.isEmpty_iff.1 (demand_eq_ok.1 (eq_ok_of_mapError hreserved))
  refine ⟨demand_eq_ok.1 (eq_ok_of_mapError hrepeated), ?_, h⟩
  exact List.nil_perm.1 (hnone ▸ List.mergeSort_perm _ _)

theorem holeTypeOf_eq_ok {declared : Entries} {hole : String × HoleType}
    (h : holeTypeOf declared name = .ok hole) : hole.1 = name ∧
      ((Value.lookup? name declared).getD (.text "any")).phrase.text?.bind HoleType.ofName? =
        some hole.2 := by
  obtain ⟨type, htype, h⟩ := bind_eq_ok.1 h
  unfold shown at htype
  split at htype
  · cases htype
    split at h
    · next t ht =>
      cases h
      exact ⟨rfl, ht⟩
    · cases h
  · cases htype

/-- The holes of a pattern in their order, no two of one name and none with a reserved one. -/
theorem holesOf_cases (h : holesOf pattern params = .ok holes) :
    holes.map (·.1) = holeNames (pieces pattern.visible) ∧
      (repeated (holes.map (·.1))).isEmpty = true ∧
      ∀ name ∈ holes.map (·.1), name ∉ reservedWords := by
  obtain ⟨hrepeated, hreserved, hholes⟩ := holesOf_eq_ok h
  have hnames : holes.map (·.1) = holeNames (pieces pattern.visible) := by
    simpa using map_eq_of_mapM (k := id) (fun _ _ hhole => (holeTypeOf_eq_ok hhole).1) hholes
  rw [hnames]
  refine ⟨rfl, hrepeated, fun name hname hword => ?_⟩
  exact List.filter_eq_nil_iff.1 hreserved name hname (by simpa using hword)

theorem names_of_holesOf (h : holesOf pattern params = .ok holes) :
    holes.map (·.1) = holeNames (pieces pattern.visible) := (holesOf_cases h).1

variable {names : List String} {hole : Option String}

theorem mem_of_namedHole (h : namedHole names v = .ok hole) :
    isNull v = true ∧ hole = none ∨ isNull v = false ∧ ∃ name ∈ names, hole = some name := by
  unfold namedHole at h
  split at h
  · cases h
    exact .inl ⟨rfl, rfl⟩
  · next s =>
    split at h
    · next hs =>
      cases h
      exact .inr ⟨rfl, s, hs, rfl⟩
    · cases h
  · unfold refuse at h
    split at h <;> cases h

/-- A comparison that takes an expected value comes with either a hole for it or a constant, and any
other comes with neither. -/
theorem expectationOf_cases {es : Entries} {c : Comparison} {literal : Option Literal}
    (h : expectationOf names es = .ok (c, hole, literal)) :
    c.takesExpected = true ∧ ((∃ name ∈ names, hole = some name ∧ literal = none) ∨
        hole = none ∧ literal.isSome = true) ∨
      c.takesExpected = false ∧ hole = none ∧ literal = none := by
  unfold expectationOf at h
  extract_lets expected constant rest at h
  obtain ⟨named, -, h⟩ := bind_eq_ok.1 h
  obtain ⟨⟨⟩, heither, h⟩ := bind_eq_ok.1 h
  obtain ⟨hole₀, hhole, h⟩ := bind_eq_ok.1 h
  have heither := demand_eq_ok.1 (eq_ok_of_mapError heither)
  -- The last step keeps comparison and hole, and reads a constant where there is one.
  have hrest {c₀ : Comparison} {hole₀ : Option String} (h : rest (c₀, hole₀) = .ok (c, hole, literal)) :
      c₀ = c ∧ hole₀ = hole ∧ literal.isSome = !isNull constant := by
    dsimp only [rest] at h
    split at h
    · next hnull =>
      cases h
      exact ⟨rfl, rfl, by rw [hnull]; rfl⟩
    · next hnull =>
      obtain ⟨found, hfound, h⟩ := bind_eq_ok.1 h
      cases h
      refine ⟨rfl, rfl, ?_⟩
      rw [Bool.eq_false_iff.2 hnull]
      cases hconstant : constantOf constant with
      | ok l =>
        rw [hconstant] at hfound
        cases hfound
        rfl
      | error e =>
        rw [hconstant] at hfound
        cases hfound
  have hnone (hnull : (isNull expected && isNull constant) = true)
      (hliteral : literal.isSome = !isNull constant) : hole₀ = none ∧ literal = none := by
    obtain ⟨hexpected, hconstant⟩ := Bool.and_eq_true_iff.1 hnull
    rw [hconstant] at hliteral
    refine ⟨?_, by simpa using hliteral⟩
    rcases mem_of_namedHole hhole with ⟨-, hno⟩ | ⟨hgiven, -⟩
    · exact hno
    · exact absurd (hexpected.symm.trans hgiven) (by decide)
  split at h
  · next hno =>
    obtain ⟨⟨⟩, hdemand, h⟩ := bind_eq_ok.1 h
    obtain ⟨pair, hpair, h⟩ := bind_eq_ok.1 h
    cases hpair
    obtain ⟨rfl, rfl, hliteral⟩ := hrest h
    have hnull := demand_eq_ok.1 (eq_ok_of_mapError hdemand)
    exact .inr ⟨by simpa using hno, hnone hnull hliteral⟩
  · next htakes =>
    have htakes : named.takesExpected = true := by simpa using htakes
    split at h
    · next hnull =>
      obtain ⟨⟨c₁, hole₁⟩, hpair, h⟩ := bind_eq_ok.1 h
      obtain ⟨rfl, rfl, hliteral⟩ := hrest h
      have himplied := eq_ok_of_mapError hpair
      unfold impliedExpectation at himplied
      split at himplied
      · cases himplied
        exact .inl ⟨htakes, .inl ⟨_, List.mem_singleton_self _, rfl, (hnone hnull hliteral).2⟩⟩
      · cases himplied
        exact .inr ⟨rfl, rfl, (hnone hnull hliteral).2⟩
      · cases himplied
    · next hgiven =>
      obtain ⟨pair, hpair, h⟩ := bind_eq_ok.1 h
      cases hpair
      obtain ⟨rfl, rfl, hliteral⟩ := hrest h
      refine .inl ⟨htakes, ?_⟩
      rcases mem_of_namedHole hhole with ⟨hnull, rfl⟩ | ⟨hnamed, name, hname, rfl⟩
      · right
        refine ⟨rfl, ?_⟩
        rw [hliteral]
        cases hconstant : isNull constant with
        | false => rfl
        | true => exact absurd (by rw [hnull, hconstant]; rfl) hgiven
      · -- a hole is named, so there is no constant beside it
        have hconstant : isNull constant = true := by simpa [show isNull expected = false from hnamed] using heither
        rw [hconstant] at hliteral
        exact .inl ⟨name, hname, rfl, by simpa using hliteral⟩

end Registry

theorem coerce_eq_ok {type : HoleType} {quoted : Bool} {p : Parameter} :
    coerce name text type quoted = .ok p ↔
      ∃ l, readLiteral name text (type.literalType quoted text) = .ok l ∧ p = ⟨name, l⟩ := by
  unfold coerce
  cases readLiteral name text (type.literalType quoted text) with
  | error e => simp [Except.map]
  | ok l => simp [Except.map, eq_comm]

namespace Template

/-- What a template captures fills its holes. -/
theorem names_of_captures? (h : Registry.templateOf v = .ok t)
    (hcaptured : t.captures? statement = some captured) :
    captured.map (·.1) = t.holes.map (·.1) := by
  obtain ⟨es, -, -, hholes, -⟩ := Registry.templateOf_cases h
  obtain ⟨pattern, hpattern, hfound⟩ := Option.bind_eq_some_iff.1 hcaptured
  rw [Registry.names_of_captures? hfound, Registry.names_of_holesOf hholes,
    Phrase.visible_of_text? hpattern]

/-- The parameter is what the hole of its name makes of a capture. -/
def Coerced (t : Template) (c : String × String) (p : Parameter) : Prop :=
  ∃ type, (c.1, type) ∈ t.holes ∧
    coerce c.1 c.2 type (Registry.quotesHole t.pattern.visible c.1) = .ok p

theorem names_of_coerced {ps : List Parameter} (h : List.Forall₂ t.Coerced captured ps) :
    ps.map (·.name) = captured.map (·.1) := by
  rw [← List.forall₂_eq_eq_eq, List.forall₂_map_left_iff, List.forall₂_map_right_iff]
  refine (h.imp fun c p hcoerced => ?_).flip
  obtain ⟨type, -, hcoerce⟩ := hcoerced
  obtain ⟨l, -, rfl⟩ := coerce_eq_ok.1 hcoerce
  rfl

/-- The parameters of a binding: one is expected, if a hole is, and the others are arguments. -/
theorem coerced_of_bind (hnames : captured.map (·.1) = t.holes.map (·.1))
    (h : t.bind captured = .ok b) : ∃ ps, List.Forall₂ t.Coerced captured ps ∧
      b = ⟨t.operation, ps.filter fun p => some p.name ≠ t.expected,
        t.expected.elim t.constantParameter fun name => ps.find? (·.name = name),
        t.comparison, t.passResult⟩ := by
  obtain ⟨ps, hps, h⟩ := bind_eq_ok.1 h
  refine ⟨ps, ?_, ?_⟩
  · have hpairs : ∀ pair ∈ t.holes.zip captured, pair.1 ∈ t.holes ∧ pair.1.1 = pair.2.1 := by
      intro pair hpair
      refine ⟨(List.of_mem_zip hpair).1, ?_⟩
      have hboth : (pair.1.1, pair.2.1) ∈ (t.holes.map (·.1)).zip (captured.map (·.1)) := by
        rw [List.zip_map]
        exact List.mem_map_of_mem hpair
      rw [hnames] at hboth
      obtain ⟨i, hi, hget⟩ := List.getElem_of_mem hboth
      rw [List.getElem_zip] at hget
      exact (Prod.mk.inj hget).1.symm.trans (Prod.mk.inj hget).2
    have hsecond : (t.holes.zip captured).map (·.2) = captured := by
      apply List.map_snd_zip
      simpa using Nat.le_of_eq (congrArg List.length hnames)
    rw [← hsecond, List.forall₂_map_left_iff]
    refine List.Forall₂.imp ?_ ((List.forall₂_and_left _ _).2 ⟨hpairs, mapM_eq_ok.1 hps⟩)
    rintro pair p ⟨⟨hmem, hname⟩, hcoerce⟩
    rw [Coerced, ← hname]
    exact ⟨_, hmem, hcoerce⟩
  · cases hexpected : t.expected <;>
    · rw [hexpected] at h
      cases h
      simp

/-- Binding keeps what is expected. -/
theorem expected_of_bind (hexpects : t.expected.isSome = !t.constant.isSome)
    (hhole : ∀ name ∈ t.expected, name ∈ t.holes.map (·.1))
    (hnames : captured.map (·.1) = t.holes.map (·.1)) (h : t.bind captured = .ok b) :
    b.expected.isSome = true := by
  obtain ⟨ps, hps, rfl⟩ := coerced_of_bind hnames h
  cases hexpected : t.expected with
  | some name =>
    have hname := hhole name hexpected
    rw [← hnames, ← names_of_coerced hps] at hname
    obtain ⟨p, hp, hname⟩ := List.mem_map.1 hname
    exact List.find?_isSome.2 ⟨p, hp, by simpa using hname⟩
  | none =>
    rw [hexpected] at hexpects
    simpa [constantParameter] using hexpects

end Template

theorem Template.exists_bind_of_attempt (h : t.attempt statement = .ok (.bound b)) :
    ∃ captured, t.captures? statement = some captured ∧ t.bind captured = .ok b := by
  unfold attempt at h
  split at h
  · cases h
  · next captured hcaptured =>
    split at h
    · next b' hbind =>
      cases h
      exact ⟨captured, hcaptured, hbind⟩
    · cases h
    · cases h

namespace Resolution

open Template

/-- The finding, from what is bound, what is mismatched and which patterns are near. -/
def verdict (bound : List (Template × Binding String Parameter))
    (mismatches : List (String × TypeMismatch)) (nearby : List Phrase) : Finding :=
  match bound with
  | [(_, b)] => .resolved b
  | [] => if mismatches.isEmpty then unmatched nearby else mismatched mismatches
  | _ => .ambiguous (bound.map (·.2.operation)) (bound.map (·.1.pattern))

def boundOf (x : Template × Attempt) : Option (Template × Binding String Parameter) :=
  x.2.binding?.map (x.1, ·)

def mismatchOf (x : Template × Attempt) : Option (String × TypeMismatch) :=
  x.2.mismatch?.map (x.1.operation, ·)

theorem ofAttempts_eq (statement : String) (tried : List (Template × Attempt)) :
    ofAttempts statement tried = verdict (tried.filterMap boundOf) (tried.filterMap mismatchOf)
      (Text.closest statement (tried.map (·.1.pattern))) := rfl

theorem boundOf_eq_some {x : Template × Attempt} : boundOf x = some (t, b) ↔ x = (t, .bound b) := by
  obtain ⟨u, a⟩ := x
  cases a <;> simp [boundOf, Attempt.binding?]

theorem eq_singleton_of_verdict {bound : List (Template × Binding String Parameter)}
    {mismatches : List (String × TypeMismatch)} {near : List Phrase}
    (h : verdict bound mismatches near = .resolved b) : ∃ t, bound = [(t, b)] := by
  rcases bound with _ | ⟨⟨t, c⟩, _ | ⟨x, rest⟩⟩
  · simp only [verdict] at h
    split at h <;> cases h
  · cases h
    exact ⟨t, rfl⟩
  · cases h

end Resolution

namespace Registry

open Resolution

variable {r : Registry} {k : Kind}

/-- A template together with what comes of it. -/
def hold (statement : String) (t : Template) : Except Misfit (Template × Template.Attempt) :=
  return (t, ← t.attempt statement)

theorem hold_eq_ok {x : Template × Template.Attempt} :
    hold statement t = .ok x ↔ x.1 = t ∧ t.attempt statement = .ok x.2 := by
  obtain ⟨u, a⟩ := x
  rw [hold, bind_eq_ok]
  constructor
  · rintro ⟨b, hb, heq⟩
    cases heq
    exact ⟨rfl, hb⟩
  · rintro ⟨rfl, ha⟩
    exact ⟨a, ha, rfl⟩

theorem resolve_eq_ok {f : Finding} : r.resolve k statement = .ok f ↔
    ∃ tried, (r.ofKind k).mapM (hold (Text.normalize statement)) = .ok tried ∧
      f = ofAttempts (Text.normalize statement) tried := by
  refine bind_eq_ok.trans (exists_congr fun tried => and_congr_right fun _ => ?_)
  exact ⟨fun h => (Except.ok.inj h).symm, fun h => h ▸ rfl⟩

/-- Just one template is bound to a statement that is resolved. -/
theorem exists_bound_of_resolve (h : r.resolve k statement = .ok (.resolved b)) :
    ∃ t ∈ r.ofKind k, t.attempt (Text.normalize statement) = .ok (.bound b) ∧
      ∀ u ∈ r.ofKind k, ∀ c, u.attempt (Text.normalize statement) = .ok (.bound c) → u = t := by
  obtain ⟨tried, htried, hfinding⟩ := resolve_eq_ok.1 h
  have htried := mapM_eq_ok.1 htried
  rw [ofAttempts_eq] at hfinding
  obtain ⟨t, hbound⟩ := eq_singleton_of_verdict hfinding.symm
  have hmem {u : Template} {c : Binding String Parameter} :
      (u, Template.Attempt.bound c) ∈ tried ↔ (u, c) = (t, b) := by
    rw [← List.mem_singleton, ← hbound]
    simp [boundOf_eq_some]
  obtain ⟨t', ht', hheld⟩ := exists_of_mem_forall₂ htried _ (hmem.2 rfl)
  obtain ⟨rfl, hattempt⟩ := hold_eq_ok.1 hheld
  refine ⟨t, ht', hattempt, fun u hu c hc => ?_⟩
  obtain ⟨x, hx, hheld⟩ := exists_of_mem_forall₂ htried.flip u hu
  have hsame : x = (u, .bound c) := by
    obtain ⟨hu, ha⟩ := hold_eq_ok.1 hheld
    exact Prod.ext hu (Except.ok.inj (ha.symm.trans hc))
  exact congrArg Prod.fst (hmem.1 (hsame ▸ hx))

/-- A resolved statement has the binding of a template of its kind. -/
theorem exists_bind_of_resolve (h : r.resolve k statement = .ok (.resolved b)) :
    ∃ t ∈ r.ofKind k, ∃ captured, t.captures? (Text.normalize statement) = some captured ∧
      t.bind captured = .ok b := by
  obtain ⟨t, ht, hattempt, -⟩ := exists_bound_of_resolve h
  exact ⟨t, ht, Template.exists_bind_of_attempt hattempt⟩

end Registry
end Acceptance

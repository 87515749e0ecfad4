import Acceptance.Proofs.LiteralText
import Acceptance.Proofs.Tracing
import Acceptance.Proofs.TypedBindings
/-!
Code tells the step. The comment line and the code line of a step determine its kind and statement, its
operation and arguments, the result that it sets or takes, and what it compares.
-/
namespace Acceptance

open Text

variable {r : Registry} {op op' : String} {n n' : Nat} {b' : Binding String Parameter}
  {c c' : Comparison} {e : Option Literal}

/-! Bindings in the form in which they are read. -/

theorem Spelled.canonical {text : String} {l : Literal} (h : Spelled text l) : l.Canonical := by
  cases h with
  | float => exact Binary64.canonical_ofDecimal ..
  | _ => trivial

theorem Parameter.Captured.canonical {p : Parameter} (h : p.Captured) : p.literal.Canonical := by
  obtain ⟨text, type, quoted, h⟩ := h
  obtain ⟨l, hread, hp⟩ := coerce_eq_ok.1 h
  rw [hp]
  exact (spelled_of_readLiteral hread).1.canonical

/-- The constants of a registry are given in the form in which literals are read, so that no value has
two forms. -/
def Registry.Canonical (r : Registry) : Prop := ∀ t ∈ r.templates, ∀ l ∈ t.constant, l.Canonical

structure Binding.Canonical (b : Binding String Parameter) : Prop where
  args : ∀ a ∈ b.args, a.literal.Canonical
  expected : ∀ p ∈ b.expected, p.literal.Canonical

theorem Registry.canonical_of_resolve (hr : r.Canonical) {k : Kind} {statement : String}
    {b : Binding String Parameter} (h : r.resolve k statement = .ok (.resolved b)) :
    b.Canonical := by
  obtain ⟨t, ht, captured, -, hbind⟩ := exists_bind_of_resolve h
  obtain ⟨-, -, -, hargs, hexpected⟩ := Template.bind_cases hbind
  refine ⟨fun a ha => (hargs a ha).2.canonical, fun p hp => ?_⟩
  rcases hexpected with ⟨-, hconstant⟩ | ⟨-, hcaptured⟩
  · rw [hconstant, Template.constantParameter] at hp
    obtain ⟨l, hl, rfl⟩ := Option.map_eq_some_iff.1 hp
    exact hr t (List.mem_of_mem_filter ht) l hl
  · exact (hcaptured p hp).canonical

theorem Plan.canonical_of_resolve {ν : Type} (hr : r.Canonical) {p d : Draft ν}
    (h : p.resolve r = .ok d) :
    ∀ s ∈ d.scenarios, ∀ t ∈ s.steps, ∀ b, t.resolution = .resolved b → b.Canonical :=
  forall_resolved h (P := fun _ => Binding.Canonical) (Registry.canonical_of_resolve hr)

namespace Emission

open Plan

/-! Calls. -/

/-- A named operand. -/
abbrev Passed := String × Operand

structure Passed.WellFormed (a : Passed) : Prop where
  name : Registry.isName a.1.toList = true
  operand : a.2.Canonical

def passedCode (a : Passed) : List Char := a.1.toList ++ '=' :: a.2.code.toList

/-- What is behind the first operand of a call. -/
def passedRest (as : List Passed) : List Char :=
  as.flatMap (fun a => ',' :: ' ' :: passedCode a) ++ [')']

/-- What is behind the opening parenthesis of a call. -/
def passedList : List Passed → List Char
  | [] => [')']
  | a :: as => passedCode a ++ passedRest as

variable {a b : Passed} {as bs : List Passed} {x y : List Char}

theorem stops_passedRest (as : List Passed) (x : List Char) : Stops (passedRest as ++ x) := by
  cases as with
  | nil => exact stops_cons (by decide) _
  | cons a as => exact stops_cons (by decide) _

theorem Passed.WellFormed.isBare (h : a.WellFormed) : ∀ c ∈ a.1.toList, IsBare c :=
  fun c hc => .inl (Registry.isNameChar_of_isName h.name c hc)

theorem passedCode_append_inj (ha : a.WellFormed) (hb : b.WellFormed) (hx : Stops x) (hy : Stops y)
    (h : passedCode a ++ x = passedCode b ++ y) : a = b ∧ x = y := by
  have hequals : ∀ cs, Stops ('=' :: cs) := stops_cons (by decide)
  simp only [passedCode, List.append_assoc, List.cons_append] at h
  obtain ⟨hname, h⟩ := bare_append_inj ha.isBare hb.isBare (hequals _) (hequals _) h
  obtain ⟨hoperand, hrest⟩ := Operand.code_append_inj ha.operand hb.operand hx hy (List.cons.inj h).2
  exact ⟨Prod.ext (String.toList_inj.1 hname) hoperand, hrest⟩

theorem passedRest_append_inj (has : ∀ a ∈ as, a.WellFormed) (hbs : ∀ b ∈ bs, b.WellFormed)
    (h : passedRest as ++ x = passedRest bs ++ y) : as = bs ∧ x = y := by
  -- a comma is before each operand and a parenthesis behind the last, so the lists end together
  induction as generalizing bs with
  | nil =>
    cases bs with
    | nil => exact ⟨rfl, (List.cons.inj h).2⟩
    | cons b bs => cases (List.cons.inj h).1
  | cons a as ih =>
    cases bs with
    | nil => cases (List.cons.inj h).1
    | cons b bs =>
      obtain ⟨ha, hasLater⟩ := List.forall_mem_cons.1 has
      obtain ⟨hb, hbsLater⟩ := List.forall_mem_cons.1 hbs
      have hcons (a : Passed) (as : List Passed) (x : List Char) : passedRest (a :: as) ++ x =
          ',' :: ' ' :: (passedCode a ++ (passedRest as ++ x)) := by
        simp [passedRest]
      rw [hcons, hcons] at h
      obtain ⟨rfl, hrest⟩ := passedCode_append_inj ha hb (stops_passedRest as x) (stops_passedRest bs y)
        (List.cons.inj (List.cons.inj h).2).2
      obtain ⟨rfl, rfl⟩ := ih hasLater hbsLater hrest
      exact ⟨rfl, rfl⟩

/-- A closing parenthesis does not start an operand. -/
theorem passedCode_append_ne (ha : a.WellFormed) (x y : List Char) : passedCode a ++ x ≠ ')' :: y := by
  intro h
  have hne : a.1.toList ≠ [] := by
    intro hnil
    have hname := ha.name
    rw [hnil] at hname
    cases hname
  obtain ⟨c, name, hc⟩ := List.exists_cons_of_ne_nil hne
  rw [passedCode, hc] at h
  have hbare := ha.isBare c (hc ▸ List.mem_cons_self)
  rw [(List.cons.inj h).1] at hbare
  exact absurd hbare (by decide)

theorem passedList_append_inj (has : ∀ a ∈ as, a.WellFormed) (hbs : ∀ b ∈ bs, b.WellFormed)
    (h : passedList as ++ x = passedList bs ++ y) : as = bs ∧ x = y := by
  cases as with
  | nil =>
    cases bs with
    | nil => exact ⟨rfl, (List.cons.inj h).2⟩
    | cons b bs =>
      rw [passedList, passedList, List.append_assoc] at h
      exact absurd h.symm (passedCode_append_ne (hbs b List.mem_cons_self) _ _)
  | cons a as =>
    cases bs with
    | nil =>
      rw [passedList, passedList, List.append_assoc] at h
      exact absurd h (passedCode_append_ne (has a List.mem_cons_self) _ _)
    | cons b bs =>
      apply passedRest_append_inj has hbs
      simpa [passedRest, passedList] using h

/-- The text of a call. -/
def callCode (operation : String) (as : List Passed) : List Char :=
  'o' :: 'p' :: 's' :: '.' :: (operation.toList ++ '(' :: passedList as)

theorem callCode_append_inj (hop : Registry.isDotted op = true)
    (hop' : Registry.isDotted op' = true) (has : ∀ a ∈ as, a.WellFormed)
    (hbs : ∀ b ∈ bs, b.WellFormed) (h : callCode op as ++ x = callCode op' bs ++ y) :
    op = op' ∧ as = bs ∧ x = y := by
  have hopen : ∀ cs, Stops ('(' :: cs) := stops_cons (by decide)
  simp only [callCode, List.append_assoc, List.cons_append, List.cons.injEq, true_and] at h
  obtain ⟨hsame, h⟩ := bare_append_inj (isBare_of_isDotted hop) (isBare_of_isDotted hop') (hopen _)
    (hopen _) h
  obtain ⟨rfl, rfl⟩ := passedList_append_inj has hbs (List.cons.inj h).2
  exact ⟨String.toList_inj.1 hsame, rfl, rfl⟩

theorem callCode_inj (hop : Registry.isDotted op = true) (hop' : Registry.isDotted op' = true)
    (has : ∀ a ∈ as, a.WellFormed) (hbs : ∀ b ∈ bs, b.WellFormed)
    (h : callCode op as = callCode op' bs) : op = op' ∧ as = bs := by
  obtain ⟨hsame, hpassed, -⟩ := callCode_append_inj hop hop' has hbs (congrArg (· ++ []) h)
  exact ⟨hsame, hpassed⟩

/-- What a binding passes; `n` is the number of the last action. -/
def passed (n : Nat) (b : Binding String Parameter) : List Passed :=
  (if b.passResult then [("result", .result n)] else []) ++
    b.args.map fun a => (a.name, .literal a.literal)

theorem passed_inj {b : Binding String Parameter} (h : passed n b = passed n' b') :
    b.passResult = b'.passResult ∧ (b.passResult = true → n = n') ∧ b.args = b'.args := by
  have hargs {ps qs : List Parameter} (hmap : ps.map (fun a => (a.name, Operand.literal a.literal)) =
      qs.map fun a => (a.name, Operand.literal a.literal)) : ps = qs := by
    refine List.map_injective_iff.2 (fun a b hab => ?_) hmap
    obtain ⟨hname, hliteral⟩ := Prod.mk.inj hab
    cases a
    cases b
    exact congrArg₂ Parameter.mk hname (Operand.literal.inj hliteral)
  -- an argument is a literal, so only the result itself is passed as a result
  have hne {ps qs : List Parameter} {m : Nat} : [("result", Operand.result m)] ++
      ps.map (fun a => (a.name, Operand.literal a.literal)) ≠
        qs.map fun a => (a.name, Operand.literal a.literal) := by
    cases qs <;> simp
  unfold passed at h
  cases hp : b.passResult <;> cases hp' : b'.passResult <;>
    simp only [hp, hp', Bool.false_eq_true, if_false, if_true, List.nil_append] at h
  · exact ⟨rfl, fun hpass => absurd hpass (by decide), hargs h⟩
  · exact absurd h.symm hne
  · exact absurd h hne
  · obtain ⟨hresult, h⟩ := List.cons.inj h
    exact ⟨rfl, fun _ => Operand.result.inj (Prod.mk.inj hresult).2, hargs h⟩

theorem wellFormed_passed {k : Kind} {b : Binding String Parameter} (hb : b.WellFormed k)
    (hc : b.Canonical) (n : Nat) : ∀ a ∈ passed n b, a.WellFormed := by
  have hresult : Registry.isName "result".toList = true := by decide
  refine List.forall_mem_append.2 ⟨?_, List.forall_mem_map.2 fun a ha => ?_⟩
  · split
    · exact List.forall_mem_singleton.2 ⟨hresult, trivial⟩
    · exact List.forall_mem_nil _
  · exact ⟨hb.names a ha, hc.args a ha⟩

theorem toList_passedList (as : List Passed) :
    (Value.commaJoin (as.map fun a => a.1 ++ "=" ++ a.2.code)).toList ++ [')'] = passedList as := by
  have hcode (a : Passed) : (a.1 ++ "=" ++ a.2.code).toList = passedCode a := by
    simp [passedCode]
  rw [Value.commaJoin, String.toList_intercalate, List.map_map]
  cases as with
  | nil => rfl
  | cons a as =>
    rw [List.map_cons, Json.intercalate_cons]
    simp [passedList, passedRest, hcode, List.flatMap_map]

theorem toList_bindingCall (n : Nat) (b : Binding String Parameter) :
    (bindingCall n b).toList = callCode b.operation (passed n b) := by
  have hgiven : ((if b.passResult then some (actionVariable n) else none).map
        fun r => s!"result={r}").toList ++ (b.args.map StoredParameter.ofParameter).map argument =
      (passed n b).map fun a => a.1 ++ "=" ++ a.2.code := by
    have hargs : (b.args.map StoredParameter.ofParameter).map argument =
        (b.args.map fun a => (a.name, Operand.literal a.literal)).map fun a => a.1 ++ "=" ++ a.2.code := by
      rw [List.map_map, List.map_map]
      rfl
    rw [passed, List.map_append, hargs]
    cases b.passResult <;> rfl
  rw [bindingCall, call, hgiven, callCode, ← toList_passedList]
  simp [toString]

/-! Conditions. -/

/-- The sign of a comparison that stands between two values, the first being that of the call. -/
def sign : Comparison → List Char
  | .eq => "==".toList
  | .ne => "!=".toList
  | .gt => ">".toList
  | .ge => ">=".toList
  | .lt => "<".toList
  | .le => "<=".toList
  | _ => []

/-- What is behind the call, in a condition that starts with it. -/
def behindCall (c : Comparison) (e : List Char) : List Char :=
  if c = .truthy then [] else ' ' :: (sign c ++ ' ' :: e)

def conditionCode (c : Comparison) (call e : List Char) : List Char :=
  match c with
  | .falsy => 'n' :: 'o' :: 't' :: ' ' :: call
  | .contains => e ++ ' ' :: 'i' :: 'n' :: ' ' :: call
  | c => call ++ behindCall c e

/-- The condition starts with the call. -/
def LeadsWithCall (c : Comparison) : Prop := c ≠ .falsy ∧ c ≠ .contains

theorem sign_inj (hc : LeadsWithCall c) (hc' : LeadsWithCall c') (ht : c ≠ .truthy)
    (ht' : c' ≠ .truthy) (h : sign c = sign c') : c = c' := by
  obtain ⟨hf, hn⟩ := hc
  obtain ⟨hf', hn'⟩ := hc'
  cases c <;> cases c' <;> simp_all [sign]

theorem behindCall_inj (hc : LeadsWithCall c) (hc' : LeadsWithCall c') {e e' : List Char}
    (h : behindCall c e = behindCall c' e') : c = c' ∧ (c.takesExpected = true → e = e') := by
  have hspace (c : Comparison) : ' ' ∉ sign c := by
    cases c <;> decide
  unfold behindCall at h
  by_cases ht : c = .truthy
  · rw [if_pos ht] at h
    by_cases ht' : c' = .truthy
    · rw [ht, ht']
      exact ⟨rfl, fun htakes => absurd htakes (by decide)⟩
    · rw [if_neg ht'] at h
      cases h
  · rw [if_neg ht] at h
    by_cases ht' : c' = .truthy
    · rw [if_pos ht'] at h
      cases h
    · rw [if_neg ht'] at h
      obtain ⟨hsame, he⟩ := append_cons_inj (hspace c) (hspace c') (List.cons.inj h).2
      exact ⟨sign_inj hc hc' ht ht' hsame, fun _ => he⟩

/-- The text of what is expected, if something is. -/
def expectedCode (e : Option Literal) : List Char := (e.map (·.code.toList)).getD []

theorem conditionCode_of_leads (hc : LeadsWithCall c) (call e : List Char) :
    conditionCode c call e = call ++ behindCall c e := by
  obtain ⟨hf, hn⟩ := hc
  unfold conditionCode
  split
  · contradiction
  · contradiction
  · rfl

theorem exists_callCode_cons (op : String) (as : List Passed) : ∃ cs, callCode op as = 'o' :: cs :=
  ⟨_, rfl⟩

/-- Only the condition that something is contained starts with a literal. -/
theorem starts_conditionCode_iff (he : e.isSome = c.takesExpected) (hl : ∀ l ∈ e, l.Canonical)
    (op : String) (as : List Passed) :
    Literal.Starts (conditionCode c (callCode op as) (expectedCode e)) ↔ c = .contains := by
  obtain ⟨cs, hcs⟩ := exists_callCode_cons op as
  constructor
  · intro h
    by_contra hne
    obtain ⟨d, rest, hd, -, ho, hn⟩ := h
    by_cases hf : c = .falsy
    · subst hf
      obtain ⟨rfl, hrest⟩ := List.cons.inj hd
      rw [← hrest] at hn
      cases hn rfl
    · rw [conditionCode_of_leads ⟨hf, hne⟩, hcs] at hd
      exact ho (List.cons.inj hd).1.symm
  · rintro rfl
    obtain ⟨l, rfl⟩ := Option.isSome_iff_exists.1 he
    exact (Literal.starts_code (hl l rfl)).append _

theorem expected_inj {e' : Option Literal} (he : e.isSome = true) (he' : e'.isSome = true)
    (hl : ∀ l ∈ e, l.Canonical) (hl' : ∀ l ∈ e', l.Canonical) (hx : Stops x) (hy : Stops y)
    (h : expectedCode e ++ x = expectedCode e' ++ y) : e = e' ∧ x = y := by
  obtain ⟨l, rfl⟩ := Option.isSome_iff_exists.1 he
  obtain ⟨l', rfl⟩ := Option.isSome_iff_exists.1 he'
  have hliteral : (Operand.literal l).code.toList ++ x = (Operand.literal l').code.toList ++ y := h
  have hcanonical : (Operand.literal l).Canonical := hl l rfl
  have hcanonical' : (Operand.literal l').Canonical := hl' l' rfl
  obtain ⟨hsame, hrest⟩ := Operand.code_append_inj hcanonical hcanonical' hx hy hliteral
  exact ⟨congrArg some (Operand.literal.inj hsame), hrest⟩

/-- The text of a condition tells the call, the comparison and what is expected. -/
theorem conditionCode_inj {e' : Option Literal}
    (hop : Registry.isDotted op = true) (hop' : Registry.isDotted op' = true)
    (has : ∀ a ∈ as, a.WellFormed) (hbs : ∀ b ∈ bs, b.WellFormed)
    (he : e.isSome = c.takesExpected) (he' : e'.isSome = c'.takesExpected)
    (hl : ∀ l ∈ e, l.Canonical) (hl' : ∀ l ∈ e', l.Canonical)
    (h : conditionCode c (callCode op as) (expectedCode e) =
      conditionCode c' (callCode op' bs) (expectedCode e')) :
    c = c' ∧ op = op' ∧ as = bs ∧ e = e' := by
  have hcontains : c = .contains ↔ c' = .contains := by
    rw [← starts_conditionCode_iff he hl op as, h, starts_conditionCode_iff he' hl']
  have hnone {c : Comparison} {e : Option Literal} (he : e.isSome = c.takesExpected)
      (hc : c.takesExpected = false) : e = none := by
    rw [← Option.not_isSome_iff_eq_none, he, hc]
    decide
  -- a condition starts with a literal, with a negation or with the call, and so tells which it is
  by_cases hn : c = .contains
  · have hn' := hcontains.1 hn
    subst hn hn'
    have hspace : ∀ cs, Stops (' ' :: cs) := stops_cons (by decide)
    obtain ⟨hexpected, hcall⟩ := expected_inj he he' hl hl' (hspace _) (hspace _) h
    obtain ⟨hop, has⟩ := callCode_inj hop hop' has hbs (by simpa using hcall)
    exact ⟨rfl, hop, has, hexpected⟩
  · have hn' := hcontains.not.1 hn
    by_cases hf : c = .falsy
    · by_cases hf' : c' = .falsy
      · subst hf hf'
        obtain ⟨hop, has⟩ := callCode_inj hop hop' has hbs (by simpa [conditionCode] using h)
        exact ⟨rfl, hop, has, (hnone he rfl).trans (hnone he' rfl).symm⟩
      · rw [hf, conditionCode_of_leads ⟨hf', hn'⟩] at h
        cases (List.cons.inj h).1
    · by_cases hf' : c' = .falsy
      · rw [hf', conditionCode_of_leads ⟨hf, hn⟩] at h
        cases (List.cons.inj h).1
      · rw [conditionCode_of_leads ⟨hf, hn⟩, conditionCode_of_leads ⟨hf', hn'⟩] at h
        obtain ⟨hop, has, hbehind⟩ := callCode_append_inj hop hop' has hbs h
        obtain ⟨rfl, hexpected⟩ := behindCall_inj ⟨hf, hn⟩ ⟨hf', hn'⟩ hbehind
        refine ⟨rfl, hop, has, ?_⟩
        cases htakes : c.takesExpected with
        | false => rw [hnone he htakes, hnone he' htakes]
        | true =>
          have hnil : Stops [] := by simp [Stops]
          exact (expected_inj (he.trans htakes) (he'.trans htakes) hl hl' hnil hnil
            (congrArg (· ++ []) (hexpected htakes))).1

theorem toList_condition (n : Nat) {b : Binding String Parameter}
    (h : b.expected.isSome = b.comparison.takesExpected) :
    (condition n b).toList = conditionCode b.comparison (callCode b.operation (passed n b))
      (expectedCode (b.expected.map (·.literal))) := by
  rw [← toList_bindingCall]
  unfold condition
  cases he : b.expected with
  | none =>
    rw [he] at h
    cases hc : b.comparison with
    | truthy => simp [checked, conditionCode, behindCall]
    | falsy => simp [checked, conditionCode, toString]
    | _ =>
      rw [hc] at h
      cases h
  | some p =>
    rw [he] at h
    cases hc : b.comparison with
    | truthy | falsy =>
      rw [hc] at h
      cases h
    | contains => simp [compared, conditionCode, expectedCode, Literal.code, toString]
    | _ => simp [compared, conditionCode, behindCall, sign, expectedCode, Literal.code, toString]

/-! Steps. -/

variable {ν ν' : Type} [ToValue ν] [ToValue ν'] {t : DraftStep ν} {t' : DraftStep ν'}

/-- What a step that is bound says and does. -/
structure StepContent where
  kind : Kind
  statement : String
  operation : String
  args : List Parameter
  /-- The number of the result that an action sets, or that an outcome takes over. -/
  result : Option Nat
  comparison : Comparison
  expected : Option Literal
  deriving DecidableEq, Repr

/-- The content of a step; `n` is the number of actions up to it. -/
def contentOf (n : Nat) (t : DraftStep ν) (b : Binding String Parameter) : StepContent where
  kind := t.kind
  statement := t.statement
  operation := b.operation
  args := b.args
  result := if t.kind = .action ∨ b.passResult then some n else none
  comparison := b.comparison
  expected := b.expected.map (·.literal)

theorem stepText_stepData (t : DraftStep ν) :
    stepText (stepData t) = s!"{t.kind.keyword} {t.statement}." := rfl

theorem commentLine_inj (h : commentLine (stepData t) = commentLine (stepData t')) :
    t.kind = t'.kind ∧ t.statement = t'.statement := by
  have htext {ν : Type} [ToValue ν] (t : DraftStep ν) : (commentLine (stepData t)).toList =
      "    # ".toList ++ (t.kind.keyword.toList ++ ' ' :: (t.statement.toList ++ ['.'])) := by
    rw [commentLine, stepText_stepData]
    simp [toString]
  have hsame := congrArg String.toList h
  rw [htext, htext] at hsame
  obtain ⟨hk, hs⟩ := keyword_append_inj (List.append_cancel_left hsame)
  exact ⟨hk, String.toList_inj.1 (List.append_cancel_right hs)⟩

/-- The code line of a step without a condition. -/
theorem toList_boundLine (n : Nat) (b : Binding String Parameter) (hk : t.kind ≠ .outcome) :
    (boundLine n t b).toList = "    ".toList ++ ((if t.kind = .action then
      (Operand.result n).code.toList ++ " = ".toList else []) ++ callCode b.operation (passed n b)) := by
  rw [← toList_bindingCall]
  unfold boundLine
  cases hkind : t.kind with
  | context => simp [toString]
  | action => simp [toString, Operand.code]
  | outcome => exact absurd hkind hk

theorem toList_boundLine_outcome (n : Nat) {b : Binding String Parameter}
    (hb : b.expected.isSome = b.comparison.takesExpected) (hk : t.kind = .outcome) :
    (boundLine n t b).toList = "    assert ".toList ++
      (conditionCode b.comparison (callCode b.operation (passed n b))
        (expectedCode (b.expected.map (·.literal))) ++
      (", ".toList ++ (quoted (stepText (stepData t))).toList)) := by
  rw [← toList_condition n hb]
  unfold boundLine
  rw [hk]
  simp [toString]

theorem boundLine_outcome_inj {b : Binding String Parameter} (hb : b.WellFormed t.kind)
    (hb' : b'.WellFormed t'.kind) (hc : b.Canonical) (hc' : b'.Canonical) (hk : t.kind = .outcome)
    (hk' : t'.kind = .outcome) (hstatement : t.statement = t'.statement)
    (h : boundLine n t b = boundLine n' t' b') : contentOf n t b = contentOf n' t' b' := by
  have hcanonical {b : Binding String Parameter} (hc : b.Canonical) :
      ∀ l ∈ b.expected.map (·.literal), l.Canonical := by
    intro l hl
    obtain ⟨p, hp, rfl⟩ := Option.map_eq_some_iff.1 hl
    exact hc.expected p hp
  -- the message that ends the line repeats the comment, so it can be cut off on both sides
  have htext : stepText (stepData t) = stepText (stepData t') := by
    rw [stepText_stepData, stepText_stepData, hk, hk', hstatement]
  have hsame := congrArg String.toList h
  rw [toList_boundLine_outcome n (hb.expected hk) hk,
    toList_boundLine_outcome n' (hb'.expected hk') hk', htext] at hsame
  obtain ⟨hcomparison, hop, hpassed, hexpected⟩ := conditionCode_inj hb.operation hb'.operation
    (wellFormed_passed hb hc n) (wellFormed_passed hb' hc' n') (by simpa using hb.expected hk)
    (by simpa using hb'.expected hk') (hcanonical hc) (hcanonical hc')
    (List.append_cancel_right (List.append_cancel_left hsame))
  obtain ⟨hpass, hn, hargs⟩ := passed_inj hpassed
  have hresult : (if b.passResult = true then some n else none) =
      if b'.passResult = true then some n' else none := by
    rw [← hpass]
    split
    · next hyes => rw [hn hyes]
    · rfl
  simp [contentOf, hk, hk', hstatement, hop, hargs, hresult, hcomparison, hexpected]

theorem boundLine_plain_inj {b : Binding String Parameter} (hb : b.WellFormed t.kind)
    (hb' : b'.WellFormed t'.kind) (hc : b.Canonical) (hc' : b'.Canonical) (hk : t.kind ≠ .outcome)
    (hkind : t.kind = t'.kind) (hstatement : t.statement = t'.statement)
    (h : boundLine n t b = boundLine n' t' b') : contentOf n t b = contentOf n' t' b' := by
  have hk' : t'.kind ≠ .outcome := hkind ▸ hk
  obtain ⟨hcomparison, hexpected, hpass⟩ := hb.plain hk
  obtain ⟨hcomparison', hexpected', hpass'⟩ := hb'.plain hk'
  have hsame := congrArg String.toList h
  rw [toList_boundLine n b hk, toList_boundLine n' b' hk', hkind] at hsame
  have hsame := List.append_cancel_left hsame
  have hcall (hcode : callCode b.operation (passed n b) = callCode b'.operation (passed n' b')) :
      b.operation = b'.operation ∧ b.args = b'.args := by
    obtain ⟨hop, hpassed⟩ := callCode_inj hb.operation hb'.operation (wellFormed_passed hb hc n)
      (wellFormed_passed hb' hc' n') hcode
    exact ⟨hop, (passed_inj hpassed).2.2⟩
  by_cases haction : t'.kind = .action
  · rw [if_pos haction, if_pos haction, List.append_assoc, List.append_assoc] at hsame
    have hspace (cs : List Char) : Stops (" = ".toList ++ cs) := stops_cons (by decide) _
    have hresult (n : Nat) : (Operand.result n).Canonical := trivial
    obtain ⟨hn, hrest⟩ :=
      Operand.code_append_inj (hresult n) (hresult n') (hspace _) (hspace _) hsame
    obtain ⟨hop, hargs⟩ := hcall (List.append_cancel_left hrest)
    simp [contentOf, hkind, hstatement, hop, hargs, Operand.result.inj hn, hcomparison, hcomparison',
      hexpected, hexpected', hpass, hpass']
  · rw [if_neg haction, if_neg haction] at hsame
    obtain ⟨hop, hargs⟩ := hcall hsame
    simp [contentOf, hkind, haction, hstatement, hop, hargs, hcomparison, hcomparison', hexpected,
      hexpected', hpass, hpass']

/-- The two lines of a step tell its content. -/
theorem lines_inj {b : Binding String Parameter} (hb : b.WellFormed t.kind)
    (hb' : b'.WellFormed t'.kind) (hc : b.Canonical) (hc' : b'.Canonical)
    (hcomment : commentLine (stepData t) = commentLine (stepData t'))
    (hcode : boundLine n t b = boundLine n' t' b') : contentOf n t b = contentOf n' t' b' := by
  obtain ⟨hkind, hstatement⟩ := commentLine_inj hcomment
  by_cases hk : t.kind = .outcome
  · exact boundLine_outcome_inj hb hb' hc hc' hk (hkind ▸ hk) hstatement hcode
  · exact boundLine_plain_inj hb hb' hc hc' hk hkind hstatement hcode

end Emission

namespace Plan

open Emission

variable {ν ν' : Type} [ToValue ν] [ToValue ν']

/-! A statement that is a quote, bound by two registries: one expects a constant, and the other what is
in a hole. -/

/-- A registry with one outcome. -/
def soleOutcome (pattern : String) (more : List (String × Value)) : Value :=
  .record [("module", .text "ops"), ("templates", .list [
    .record ([("kind", .text "THEN"), ("pattern", .text pattern), ("operation", .text "b")] ++ more)])]

def constantRegistry : Registry :=
  ⟨"ops", [⟨.outcome, "'", "b", [], none, some (.text "'"), .eq, false⟩], none, none, "a.yaml"⟩

def holeRegistry : Registry :=
  ⟨"ops", [⟨.outcome, "\x7bn\x7d", "b", [("n", .any)], some "n", none, .eq, false⟩], none, none,
    "b.yaml"⟩

theorem ofValue_constant : Registry.ofValue (soleOutcome "'" [("expected_value", .text "'")]) "a.yaml" =
    .ok constantRegistry := eq_ok_of_toOption (by decide +kernel)

theorem ofValue_hole : Registry.ofValue (soleOutcome "\x7bn\x7d" []) "b.yaml" = .ok holeRegistry :=
  eq_ok_of_toOption (by decide +kernel)

def quotePlan : Plan := ⟨"a.gwt", "a", [ofScenario ⟨"t", [⟨.outcome, "'", [], 2⟩], 1⟩]⟩

/-- The document is what a registry makes of the quote, and the test is of its step. -/
structure QuoteTest (r : Registry) (d : Plan) (s : DraftScenario Nat) (t : DraftStep Nat)
    (c : TestCode) (span : Span) : Prop where
  resolve : quotePlan.resolve r = .ok d
  scenario : s ∈ d.scenarios
  test : testCode r [] (draftData s) = .ok c
  step : s.steps[0]? = some t
  place : c.spans[0]? = some span
  comment : c.lines[span.first - 1]? = some "    # THEN '."
  code : c.lines[span.last - 1]? = some "    assert ops.b() == \"'\", \"THEN '.\""

theorem exists_quoteTest
    (h : ((quotePlan.resolve r).toOption.map fun d => d.scenarios.map fun s =>
        (testCode r [] (draftData s)).toOption.map fun c =>
          (s.steps.map (·.statement), c.lines.drop 5)) =
      some [some (["'"], ["    # THEN '.", "    assert ops.b() == \"'\", \"THEN '.\""])]) :
    ∃ d s t c span, QuoteTest r d s t c span := by
  obtain ⟨d, hd, hscenarios⟩ := Option.map_eq_some_iff.1 h
  obtain ⟨s, hs, hview⟩ := List.map_eq_singleton_iff.1 hscenarios
  obtain ⟨c, hc, hparts⟩ := Option.map_eq_some_iff.1 hview
  simp only [Prod.mk.injEq, List.map_eq_singleton_iff] at hparts
  obtain ⟨⟨t, ht, -⟩, hlines⟩ := hparts
  obtain ⟨name, pairs, -, -, rfl⟩ := testCode_eq_ok (eq_ok_of_toOption hc)
  have hline (k : Nat) : (testOf r name s pairs).lines[5 + k]? = _ := (List.getElem?_drop ..).symm
  refine ⟨d, s, t, _, ⟨t.kind, .text t.statement, toValue t.line, 6, 7⟩, eq_ok_of_toOption hd, ?_,
    eq_ok_of_toOption hc, ?_, ?_, ?_, ?_⟩
  · rw [hs]
    exact List.mem_singleton_self s
  · rw [ht]
    rfl
  · rw [testOf, ht]
    rfl
  · exact (hline 0).trans (by rw [hlines]; rfl)
  · exact (hline 1).trans (by rw [hlines]; rfl)

/-- Emission loses nothing. Where the tests of two scenarios that registries have resolved have the same
comment line and the same code line for a step of each, the steps have the same content. -/
theorem code_tells_content {v v' : Value} {origin origin' : String} {r r' : Registry}
    (hr : Registry.ofValue v origin = .ok r) (hr' : Registry.ofValue v' origin' = .ok r')
    (hcanonical : r.Canonical) (hcanonical' : r'.Canonical) {p d : Draft ν} {p' d' : Draft ν'}
    (hd : p.resolve r = .ok d) (hd' : p'.resolve r' = .ok d') {s : DraftScenario ν}
    {s' : DraftScenario ν'} (hs : s ∈ d.scenarios) (hs' : s' ∈ d'.scenarios)
    {taken taken' : List String} {test test' : TestCode}
    (htest : testCode r taken (draftData s) = .ok test)
    (htest' : testCode r' taken' (draftData s') = .ok test') {i j : Nat} {t : DraftStep ν}
    {t' : DraftStep ν'} (ht : s.steps[i]? = some t) (ht' : s'.steps[j]? = some t') {span span' : Span}
    (hspan : test.spans[i]? = some span) (hspan' : test'.spans[j]? = some span')
    (hcomment : test.lines[span.first - 1]? = test'.lines[span'.first - 1]?)
    (hcode : test.lines[span.last - 1]? = test'.lines[span'.last - 1]?) :
    ∃ b b', t.resolution = .resolved b ∧ t'.resolution = .resolved b' ∧
      contentOf (actionsUpTo s.steps i) t b = contentOf (actionsUpTo s'.steps j) t' b' := by
  obtain ⟨name, pairs, -, hpairs, rfl⟩ := testCode_eq_ok htest
  obtain ⟨name', pairs', -, hpairs', rfl⟩ := testCode_eq_ok htest'
  have hbound := wellFormed_of_resolve hr hd s hs
  have hbound' := wellFormed_of_resolve hr' hd' s' hs'
  obtain ⟨b, hb, -, hat, hfirst, hlast⟩ := getElem?_testOf name hpairs hbound ht
  obtain ⟨b', hb', -, hat', hfirst', hlast'⟩ := getElem?_testOf name' hpairs' hbound' ht'
  obtain rfl := Option.some.inj (hspan.symm.trans hat)
  obtain rfl := Option.some.inj (hspan'.symm.trans hat')
  have hcommentLine := Option.some.inj (hfirst.symm.trans (hcomment.trans hfirst'))
  have hcodeLine := Option.some.inj (hlast.symm.trans (hcode.trans hlast'))
  have hmem := List.mem_of_getElem? ht
  have hmem' := List.mem_of_getElem? ht'
  refine ⟨b, b', hb, hb', lines_inj (hbound t hmem b hb) (hbound' t' hmem' b' hb') ?_ ?_ hcommentLine
    hcodeLine⟩
  · exact canonical_of_resolve hcanonical hd s hs t hmem b hb
  · exact canonical_of_resolve hcanonical' hd' s' hs' t' hmem' b' hb'

theorem code_tells_content_quote : ∃ d d' s s' t t' test test' span span',
    QuoteTest constantRegistry d s t test span ∧ QuoteTest holeRegistry d' s' t' test' span' ∧
      ∃ b b', t.resolution = .resolved b ∧ t'.resolution = .resolved b' ∧
        contentOf (actionsUpTo s.steps 0) t b = contentOf (actionsUpTo s'.steps 0) t' b' := by
  obtain ⟨d, s, t, test, span, h⟩ := exists_quoteTest (r := constantRegistry) (by decide +kernel)
  obtain ⟨d', s', t', test', span', h'⟩ := exists_quoteTest (r := holeRegistry) (by decide +kernel)
  have hconstant : constantRegistry.Canonical := by
    simp [Registry.Canonical, constantRegistry, Literal.Canonical]
  have hhole : holeRegistry.Canonical := by simp [Registry.Canonical, holeRegistry]
  exact ⟨d, d', s, s', t, t', test, test', span, span', h, h',
    code_tells_content ofValue_constant ofValue_hole hconstant hhole h.resolve h'.resolve h.scenario
      h'.scenario h.test h'.test h.step h'.step h.place h'.place (h.comment.trans h'.comment.symm)
      (h.code.trans h'.code.symm)⟩

end Plan
end Acceptance

import Acceptance.Proofs.MoreTemplates
import Acceptance.Proofs.RegistryRules
/-!
What a binding holds. It has the operation of the one template that fits the statement, and one parameter
for each hole, in the order of the pattern. What a hole captured is kept as a text, or read as the number
or the truth value that it spells; the type is the one that was declared, and without one the looks of the
text decide, except between quotes.
-/
namespace Acceptance

open Text

variable {text : String} {w : Value}

/-! Numerals. -/

namespace Numeral

variable {cs : List Char} {n : Numeral}

/-- How a numeral is written. -/
def chars (n : Numeral) : List Char :=
  (if n.negative then ['-'] else []) ++ (n.whole ++ n.fraction.elim [] ('.' :: ·))

/-- The text is a numeral: an optional sign, digits, and for a fraction a point and more digits. -/
structure Spells (n : Numeral) (cs : List Char) : Prop where
  text : cs = n.chars
  whole : n.whole ≠ [] ∧ ∀ d ∈ n.whole, isDigit d = true
  fraction : ∀ ds ∈ n.fraction, ds ≠ [] ∧ ∀ d ∈ ds, isDigit d = true

theorem takeFraction_eq {fraction : Option (List Char)} : takeFraction cs = (fraction, []) ↔
    cs = fraction.elim [] ('.' :: ·) ∧ ∀ ds ∈ fraction, ds ≠ [] ∧ ∀ d ∈ ds, isDigit d = true := by
  constructor
  · intro h
    unfold takeFraction at h
    split at h
    · next rest =>
      split at h
      · cases h
      · next hsome =>
        obtain ⟨rfl, hnil⟩ := Prod.mk.inj h
        have hall := List.takeWhile_append_dropWhile (p := isDigit) (l := rest)
        rw [hnil, List.append_nil] at hall
        refine ⟨by rw [Option.elim_some, hall], ?_⟩
        rintro ds ⟨rfl⟩
        exact ⟨by simpa using hsome, fun d hd => List.mem_takeWhile_imp hd⟩
    · obtain ⟨rfl, rfl⟩ := Prod.mk.inj h
      simp
  · rintro ⟨rfl, hfraction⟩
    cases fraction with
    | none => rfl
    | some ds =>
      obtain ⟨hne, hds⟩ := hfraction ds rfl
      obtain ⟨htake, hdrop⟩ :
          (ds ++ []).takeWhile isDigit = ds ∧ (ds ++ []).dropWhile isDigit = [] :=
        span_append hds (by simp)
      rw [List.append_nil] at htake hdrop
      rw [Option.elim_some, takeFraction, htake, hdrop, if_neg (by simpa using hne)]

/-- Behind a sign, or without one, the rest of a numeral with that sign is read. -/
theorem takeUnsigned?_eq {negative : Bool} : takeUnsigned? negative cs = some (n, []) ↔
    n.negative = negative ∧ n.Spells ((if negative then ['-'] else []) ++ cs) := by
  unfold takeUnsigned?
  constructor
  · intro h
    split at h
    · cases h
    · next hsome =>
      cases hfound : takeFraction (cs.dropWhile isDigit) with
      | mk fraction rest =>
        rw [hfound] at h
        cases h
        obtain ⟨hcs, hfraction⟩ := takeFraction_eq.1 hfound
        refine ⟨rfl, ?_, ⟨by simpa using hsome, fun d hd => List.mem_takeWhile_imp hd⟩, hfraction⟩
        rw [chars, ← hcs, List.takeWhile_append_dropWhile]
  · rintro ⟨rfl, htext, ⟨hne, hwhole⟩, hfraction⟩
    obtain rfl := List.append_cancel_left htext
    have hrest : ∀ c ∈ (n.fraction.elim [] ('.' :: ·)).head?, isDigit c = false := by
      cases n.fraction with
      | none => simp
      | some ds =>
        rintro c ⟨rfl⟩
        decide
    obtain ⟨htake, hdrop⟩ := span_append hwhole hrest
    rw [htake, hdrop, if_neg (by simpa using hne), takeFraction_eq.2 ⟨rfl, hfraction⟩]

/-- The numeral that a text is read as is the one that it spells. -/
theorem ofText?_eq_some : ofText? cs = some n ↔ n.Spells cs := by
  have hof : ofText? cs = some n ↔ take? cs = some (n, []) := by
    unfold ofText?
    constructor
    · intro h
      split at h
      · next htake =>
        cases h
        exact htake
      · cases h
    · intro h
      rw [h]
  rw [hof]
  unfold take?
  split
  · next ds =>
    refine takeUnsigned?_eq.trans ⟨And.right, fun h => ⟨?_, h⟩⟩
    by_contra hno
    obtain ⟨d, whole, hw⟩ := List.exists_cons_of_ne_nil h.whole.1
    have htext := h.text
    rw [chars, if_neg hno, hw] at htext
    have hdigit := h.whole.2 d (hw ▸ List.mem_cons_self)
    rw [← (List.cons.inj htext).1] at hdigit
    exact absurd hdigit (by decide)
  · next hminus =>
    refine takeUnsigned?_eq.trans ⟨And.right, fun h => ⟨?_, h⟩⟩
    by_contra hno
    have htext := h.text
    rw [chars, if_pos (by simpa using hno)] at htext
    exact hminus _ htext

/-- Only a fraction has a point. -/
theorem Spells.point_mem_iff (h : n.Spells cs) : '.' ∈ cs ↔ n.fraction.isSome = true := by
  have hpoint : isDigit '.' = false := by decide
  have hwhole : '.' ∉ n.whole := by
    intro hmem
    exact absurd (h.whole.2 _ hmem) (by rw [hpoint]; decide)
  rw [h.text, chars]
  cases n.negative <;> cases n.fraction <;> simp [hwhole]

end Numeral

/-- The literals that a text can stand for. -/
inductive Spelled (text : String) : Literal → Prop
  | text : Spelled text (.text text)
  | truth {b : Bool} (h : text = if b then "true" else "false") : Spelled text (.boolean b)
  | int {n : Numeral} (h : n.Spells text.toList) (hpoint : '.' ∉ text.toList) :
    Spelled text (.int (Numeral.signed n.negative (Numeral.digitsValue n.whole)))
  | float {n : Numeral} (h : n.Spells text.toList) (hpoint : '.' ∈ text.toList) :
    Spelled text (.float n.toBinary64)

theorem spelled_of_readLiteral {name : String} {type : LiteralType} {l : Literal}
    (h : readLiteral name text type = .ok l) : Spelled text l ∧ l.type = type := by
  cases type with
  | text =>
    cases h
    exact ⟨.text, rfl⟩
  | boolean =>
    simp only [readLiteral] at h
    split at h
    · next htrue =>
      cases h
      exact ⟨.truth htrue, rfl⟩
    · split at h
      · next hfalse =>
        cases h
        exact ⟨.truth hfalse, rfl⟩
      · cases h
  | number =>
    simp only [readLiteral] at h
    split at h
    · next n hn =>
      have hspells := Numeral.ofText?_eq_some.1 hn
      have hliteral := eq_ok_of_mapError h
      unfold Numeral.literal at hliteral
      split at hliteral
      · next hfraction =>
        cases hliteral
        exact ⟨.float hspells (hspells.point_mem_iff.2 (by rw [hfraction]; rfl)), rfl⟩
      · next hfraction =>
        split at hliteral
        · cases hliteral
        · cases hliteral
          refine ⟨.int hspells fun hpoint => ?_, rfl⟩
          have hsome := hspells.point_mem_iff.1 hpoint
          rw [hfraction] at hsome
          cases hsome
    · cases h

/-- A text that looks like a text stands for nothing else. -/
theorem eq_text_of_inferType (h : inferType text = .text) :
    ∀ l, Spelled text l → l = .text text := by
  unfold inferType at h
  split at h
  · cases h
  · next hnumeral =>
    split at h
    · cases h
    · next htruth =>
      have hnone : ∀ n : Numeral, ¬n.Spells text.toList := by
        intro n hn
        rw [Numeral.ofText?_eq_some.2 hn] at hnumeral
        exact hnumeral rfl
      intro l hl
      cases hl with
      | text => rfl
      | @truth b htext => cases b <;> simp [htext] at htruth
      | int hn => exact absurd hn (hnone _)
      | float hn => exact absurd hn (hnone _)

namespace HoleType

theorem name_injective : Function.Injective name := by
  intro s t h
  have hsame := ofName?_name s
  rw [h, ofName?_name] at hsame
  exact (Option.some.inj hsame).symm

theorem name_of_ofName? {s : String} {t : HoleType} (h : ofName? s = some t) : s = t.name := by
  unfold ofName? at h
  split at h
  · next hs =>
    cases h
    exact hs
  · obtain ⟨type, htype, rfl⟩ := Option.map_eq_some_iff.1 h
    have hname := List.find?_some (p := fun u : LiteralType => u.name == s) htype
    exact (eq_of_beq hname).symm

end HoleType

/-! Parameters. -/

namespace Registry

/-- What the entry of a template declares as the type of a hole. -/
def declaredType? (w : Value) (name : String) : Option Value :=
  w.entries?.bind fun es => (member es "params").entries?.bind (Value.lookup? name)

/-- The name of the type of a hole. A hole without one may hold anything. -/
def typeName? (w : Value) (name : String) : Option String :=
  ((declaredType? w name).getD (.text "any")).phrase.text?

/-- A hole of this name stands between quotes in the pattern. -/
def Quoted (pattern : Phrase) (name : String) : Prop :=
  '"' :: (Frame.holeText name.toList ++ ['"']) <:+: pattern.visible.toList

/-- The parameter that a hole of a template gets, from the name of the hole and what it captured. -/
structure Typed (w : Value) (pattern : Phrase) (c : String × String) (p : Parameter) : Prop where
  name : p.name = c.1
  spelled : Spelled c.2 p.literal
  declared : ∀ type : LiteralType, typeName? w c.1 = some type.name → p.literal.type = type
  quoted : typeName? w c.1 = some "any" → Quoted pattern c.1 → p.literal.type = .text
  free : typeName? w c.1 = some "any" → ¬Quoted pattern c.1 → p.literal.type = .text →
    ∀ l, Spelled c.2 l → l = .text c.2

theorem quotesHole_iff {pattern : Phrase} {name : String} :
    quotesHole pattern.visible name = true ↔ Quoted pattern name := by
  rw [quotesHole, occurs_iff, Quoted, Frame.holeText]
  simp

/-- A hole has the type that is declared for it. -/
theorem typeName?_of_templateOf {t : Template} (h : templateOf w = .ok t) :
    ∀ hole ∈ t.holes, typeName? w hole.1 = some hole.2.name := by
  intro hole hmem
  obtain ⟨es, hes, -, hholes, -⟩ := templateOf_cases h
  obtain ⟨-, -, hholes⟩ := holesOf_eq_ok hholes
  obtain ⟨name, -, htype⟩ := exists_of_mem_mapM hholes hole hmem
  obtain ⟨rfl, htype⟩ := holeTypeOf_eq_ok htype
  have hdeclared : declaredType? w hole.1 =
      Value.lookup? hole.1 ((member es "params").entries?.getD []) := by
    rw [declaredType?, hes, Option.bind_some]
    cases (member es "params").entries? <;> rfl
  obtain ⟨name, hname, hof⟩ := Option.bind_eq_some_iff.1 htype
  rw [typeName?, hdeclared, hname, HoleType.name_of_ofName? hof]

theorem typed_of_coerce {t : Template} (hw : templateOf w = .ok t) {hole : String × HoleType}
    (hhole : hole ∈ t.holes) {p : Parameter}
    (h : coerce hole.1 text hole.2 (quotesHole t.pattern.visible hole.1) = .ok p) :
    Typed w t.pattern (hole.1, text) p := by
  obtain ⟨l, hread, rfl⟩ := coerce_eq_ok.1 h
  obtain ⟨hspelled, htype⟩ := spelled_of_readLiteral hread
  have hname := typeName?_of_templateOf hw hole hhole
  have hof (type : HoleType) (hsame : typeName? w hole.1 = some type.name) : hole.2 = type :=
    HoleType.name_injective (Option.some.inj (hname.symm.trans hsame))
  refine ⟨rfl, hspelled, fun type hdeclared => ?_, fun hany hquoted => ?_, fun hany hfree htext => ?_⟩
  · rw [htype, hof (.only type) hdeclared]
    rfl
  · rw [htype, hof .any hany, quotesHole_iff.2 hquoted]
    rfl
  · rw [hof .any hany, Bool.eq_false_iff.2 (mt quotesHole_iff.1 hfree)] at htype
    exact eq_text_of_inferType (htype.symm.trans htext)

end Registry

/-! Bindings. -/

namespace Template

variable {t : Template} {captured : List (String × String)} {b : Binding String Parameter}

theorem find?_name {ps : List Parameter} (hnodup : (ps.map (·.name)).Nodup) {p : Parameter}
    (hp : p ∈ ps) : ps.find? (·.name = p.name) = some p := by
  have hsome : (ps.find? (·.name = p.name)).isSome = true := List.find?_isSome.2 ⟨p, hp, by simp⟩
  obtain ⟨q, hq⟩ := Option.isSome_iff_exists.1 hsome
  have hname : q.name = p.name := by simpa using List.find?_some hq
  rw [hq, List.inj_on_of_nodup_map hnodup (List.mem_of_find?_eq_some hq) hp hname]

/-- What a binding has from the template `t`, which was read from `w`, and from what its holes captured. -/
structure Faithful (w : Value) (t : Template) (captured : List (String × String))
    (b : Binding String Parameter) : Prop where
  operation : b.operation = t.operation
  comparison : b.comparison = t.comparison
  passResult : b.passResult = t.passResult
  names : b.args.map (·.name) =
    (Registry.holeNames (Registry.pieces t.pattern.visible)).filter fun name => some name ≠ t.expected
  args : List.Forall₂ (Registry.Typed w t.pattern) (captured.filter fun c => some c.1 ≠ t.expected)
    b.args
  expected : ∀ name ∈ t.expected, ∃ text p, (name, text) ∈ captured ∧ b.expected = some p ∧
    Registry.Typed w t.pattern (name, text) p
  constant : t.expected = none → b.expected = t.constantParameter
  outcome : t.kind = .outcome → b.expected.isSome = t.comparison.takesExpected

theorem faithful_of_bind (hw : Registry.templateOf w = .ok t)
    (hnames : captured.map (·.1) = t.holes.map (·.1)) (h : t.bind captured = .ok b)
    (houtcome : t.kind = .outcome → b.expected.isSome = b.comparison.takesExpected) :
    Faithful w t captured b := by
  have hwell := wellFormed_of_templateOf hw
  obtain ⟨ps, hcoerced, rfl⟩ := coerced_of_bind hnames h
  have hparameters := (names_of_coerced hcoerced).trans hnames
  have hps : List.Forall₂ (Registry.Typed w t.pattern) captured ps := by
    refine hcoerced.imp fun c p hp => ?_
    obtain ⟨type, hmem, hcoerce⟩ := hp
    exact Registry.typed_of_coerce hw hmem hcoerce
  refine ⟨rfl, rfl, rfl, ?_, ?_, fun name hname => ?_, fun hnone => ?_, houtcome⟩
  · rw [← hwell.holes, ← hparameters, List.filter_map]
    rfl
  · refine List.rel_filter (fun c p htyped => ?_) hps
    simp only [htyped.name]
  · have hmem : name ∈ captured.map (·.1) := hnames ▸ hwell.expected name hname
    obtain ⟨c, hc, rfl⟩ := List.mem_map.1 hmem
    obtain ⟨p, hp, htyped⟩ := exists_of_mem_forall₂ hps.flip c hc
    refine ⟨c.2, p, hc, ?_, htyped⟩
    rw [show t.expected = some c.1 from hname, Option.elim_some, ← htyped.name]
    exact find?_name (hparameters ▸ hwell.distinct) hp
  · simp only [hnone]
    rfl

end Template

namespace Registry

open Resolution

variable {r : Registry} {k : Kind} {statement : String} {b : Binding String Parameter}

/-- What the holes capture fills them so that the pattern becomes the statement. -/
theorem splits_of_captures? {t : Template} {captured : List (String × String)}
    (h : t.captures? text = some captured) :
    Splits (pieces t.pattern.visible) text.toList (captured.map (·.2.toList)) := by
  obtain ⟨pattern, hpattern, hfound⟩ := Option.bind_eq_some_iff.1 h
  obtain ⟨caps, hfit, rfl⟩ := Option.map_eq_some_iff.1 hfound
  have hsplits := splits_of_fit hfit
  have hlength := length_of_splits hsplits
  have hcaps : ((holeNames (pieces pattern)).zip (caps.map String.ofList)).map (·.2.toList) = caps := by
    have hsecond : ((holeNames (pieces pattern)).zip (caps.map String.ofList)).map (·.2) =
        caps.map String.ofList := List.map_snd_zip (by simp [hlength])
    have hback := congrArg (List.map String.toList) hsecond
    simpa [List.map_map, Function.comp_def] using hback
  rw [Phrase.visible_of_text? hpattern, hcaps]
  exact hsplits

/-- The template that binds a statement was read from an entry of the registry, and the binding keeps to
both. -/
theorem exists_faithful {v : Value} {source : String} (hr : ofValue v source = .ok r)
    (h : r.resolve k statement = .ok (.resolved b)) {t : Template} (ht : t ∈ r.ofKind k)
    (hattempt : t.attempt (Text.normalize statement) = .ok (.bound b)) :
    ∃ w ∈ templateEntries v, templateOf w = .ok t ∧ ∃ captured : List (String × String),
      t.captures? (Text.normalize statement) = some captured ∧
      captured.map (·.1) = t.holes.map (·.1) ∧ t.Faithful w captured b := by
  obtain ⟨hmem, hkind⟩ := List.mem_filter.1 ht
  obtain ⟨w, hw, hread⟩ := exists_entry hr t hmem
  obtain ⟨captured, hcaptured, hbind⟩ := Template.exists_bind_of_attempt hattempt
  have hnames := Template.names_of_captures? hread hcaptured
  have hoption : t.kind = .outcome → b.expected.isSome = b.comparison.takesExpected := by
    intro houtcome
    apply (wellFormed_of_resolve hr h).expected
    rw [← houtcome, of_decide_eq_true hkind]
  exact ⟨w, hw, hread, captured, hcaptured, hnames,
    Template.faithful_of_bind hread hnames hbind hoption⟩

/-- A statement that a registry resolves has the binding of just one template. Its operation and what it
is compared with are those of the template; the captures make up the statement, and there is a parameter
for each, of the type that its hole asks for. -/
theorem faithful_of_resolve {v : Value} {source : String} (hr : ofValue v source = .ok r)
    (h : r.resolve k statement = .ok (.resolved b)) :
    ∃ t ∈ r.ofKind k,
      (∀ u ∈ r.ofKind k, ∀ c, u.attempt (Text.normalize statement) = .ok (.bound c) → u = t) ∧
      ∃ w ∈ templateEntries v, templateOf w = .ok t ∧ ∃ captured : List (String × String),
        (captured.map (·.1)).Nodup ∧ captured.map (·.1) = holeNames (pieces t.pattern.visible) ∧
        Splits (pieces t.pattern.visible) (Text.normalize statement).toList
          (captured.map (·.2.toList)) ∧
        t.captures? (Text.normalize statement) = some captured ∧ t.Faithful w captured b := by
  obtain ⟨t, ht, hattempt, hunique⟩ := exists_bound_of_resolve h
  obtain ⟨w, hw, hread, captured, hcaptured, hnames, hfaithful⟩ := exists_faithful hr h ht hattempt
  have hwell := Template.wellFormed_of_templateOf hread
  exact ⟨t, ht, hunique, w, hw, hread, captured, hnames ▸ hwell.distinct, hnames.trans hwell.holes,
    splits_of_captures? hcaptured, hcaptured, hfaithful⟩

/-- A registry with a hole of each sort: one for texts only, one between quotes, and one that may hold
anything and is expected. -/
def pricing : Value :=
  .record [("module", .text "shop"), ("templates", .list [
    .record [("kind", .text "THEN"), ("pattern", .text "\x7bn\x7d of \"\x7bwho\x7d\" cost \x7bprice\x7d"),
      ("operation", .text "cost"), ("expected", .text "price"), ("pass_result", .boolean true),
      ("params", .record [("n", .text "string")])]])]

def pricingTemplate : Template :=
  ⟨.outcome, "\x7bn\x7d of \"\x7bwho\x7d\" cost \x7bprice\x7d", "cost",
    [("n", .only .text), ("who", .any), ("price", .any)], some "price", none, .eq, true⟩

def pricingBinding : Binding String Parameter :=
  ⟨"cost", [⟨"n", .text "12"⟩, ⟨"who", .text "true"⟩],
    some ⟨"price", .float (Numeral.toBinary64 ⟨true, ['3'], some ['5', '0']⟩)⟩, .eq, true⟩

theorem faithful_of_resolve_pricing :
    ofValue pricing "shop.yaml" = .ok ⟨"shop", [pricingTemplate], none, none, "shop.yaml"⟩ ∧
    resolve ⟨"shop", [pricingTemplate], none, none, "shop.yaml"⟩ .outcome
      "12 of  \"true\" cost -3.50" = .ok (.resolved pricingBinding) ∧
    ∃ w ∈ templateEntries pricing, templateOf w = .ok pricingTemplate ∧
      pricingTemplate.Faithful w [("n", "12"), ("who", "true"), ("price", "-3.50")] pricingBinding := by
  have hread : ofValue pricing "shop.yaml" = .ok ⟨"shop", [pricingTemplate], none, none, "shop.yaml"⟩ :=
    eq_ok_of_toOption (by decide +kernel)
  have hresolve : resolve ⟨"shop", [pricingTemplate], none, none, "shop.yaml"⟩ .outcome
      "12 of  \"true\" cost -3.50" = .ok (.resolved pricingBinding) :=
    eq_ok_of_toOption (by decide +kernel)
  obtain ⟨t, ht, -, w, hw, htemplate, captured, -, -, -, hcaptured, hfaithful⟩ :=
    faithful_of_resolve hread hresolve
  obtain rfl : t = pricingTemplate := List.mem_singleton.1 (List.mem_filter.1 ht).1
  have hsame : pricingTemplate.captures? (Text.normalize "12 of  \"true\" cost -3.50") =
      some [("n", "12"), ("who", "true"), ("price", "-3.50")] := by decide +kernel
  cases hcaptured.symm.trans hsame
  exact ⟨hread, hresolve, w, hw, htemplate, hfaithful⟩

end Registry

end Acceptance

import Acceptance.Proofs.CopiedLines
import Acceptance.Proofs.TypedBindings
/-!
Holes between quotes. Matching looks at what stands right before and behind a hole, and binding
looks for the hole in its quotes anywhere in the pattern. Both find the same, since a text that is
written as a hole is always read as one: the names of holes have neither braces nor quotes in them.
-/
namespace Acceptance.Registry

open Text Spec

variable {name : String} {q q' : Bool} {ps : List Piece} {cs : List Char}

/-! One test finds what the other finds. -/

/-- How a hole between quotes is written. -/
def quotedText (name : String) : List Char := '"' :: (Frame.holeText name.toList ++ ['"'])

theorem quotesHole_iff_isInfix {pattern : String} :
    quotesHole pattern name = true ↔ quotedText name <:+: pattern.toList := by
  have h := @quotesHole_iff (Phrase.ofText pattern) name
  rwa [Quoted, Phrase.visible_ofText] at h

/-- A hole that is read between quotes is written between quotes, the first of which may already
have been passed. -/
theorem isInfix_of_hole_mem (q : Bool) (cs : List Char)
    (h : Piece.hole name true ∈ piecesFrom q cs) :
    quotedText name <:+: (if q then ['"'] else []) ++ cs := by
  fun_induction piecesFrom q cs with
  | case1 => cases h
  | case2 q cs found rest htake ih =>
    obtain ⟨-, rfl⟩ := of_takeHole? htake
    rcases List.mem_cons.1 h with hfirst | hlater
    · obtain ⟨rfl, hquoted⟩ := Piece.hole.inj hfirst
      obtain ⟨rfl, hrest⟩ := Bool.and_eq_true_iff.1 hquoted.symm
      unfold startsWithQuote at hrest
      split at hrest
      · next more => exact ⟨[], more, by simp [quotedText, Frame.holeText]⟩
      · cases hrest
    · refine (ih hlater).trans ⟨(if q then ['"'] else []) ++ Frame.holeText found, [], ?_⟩
      simp [Frame.holeText]
  | case3 q cs htake ih =>
    have hlater := ih (by simpa using h)
    exact hlater.trans ⟨(if q then ['"'] else []) ++ ['\x7b'], [], by simp⟩
  | case4 q c cs hc ih =>
    have hlater := ih (by simpa using h)
    have hpassed : (if (c == '"') = true then ['"'] else []) ++ cs <:+: c :: cs := by
      split
      · next hquote => rw [eq_of_beq hquote]; exact List.infix_rfl
      · exact (List.suffix_cons c cs).isInfix
    exact (hlater.trans hpassed).trans (List.suffix_append ..).isInfix

/-- What is written as a hole between quotes is read as one. No hole that begins earlier reaches
into it, since a hole has no quote in it. -/
theorem hole_mem_of_isInfix (hname : isName name.toList = true) (q : Bool) (cs : List Char)
    (h : quotedText name <:+: cs) : Piece.hole name true ∈ piecesFrom q cs := by
  fun_induction piecesFrom q cs with
  | case1 => cases List.infix_nil.1 h
  | case2 q cs found rest htake ih =>
    obtain ⟨hfound, rfl⟩ := of_takeHole? htake
    have hquote : MayTake true (Frame.holeText found) := mayTake_holeText hfound true
    have hsplit : quotedText name <:+: Frame.holeText found ++ rest := by
      simpa [Frame.holeText] using h
    rcases List.infix_append_iff.1 hsplit with hin | hin | ⟨l, m, hlm, hend, hstart⟩
    · exact absurd (hin.subset List.mem_cons_self) hquote
    · exact List.mem_cons_of_mem _ (ih hin)
    · cases l with
      | nil =>
        rw [List.nil_append] at hlm
        exact List.mem_cons_of_mem _ (ih (hlm ▸ hstart.isInfix))
      | cons c l =>
        rw [← (List.cons.inj hlm).1] at hend
        exact absurd (hend.subset List.mem_cons_self) hquote
  | case3 q cs htake ih =>
    rcases List.infix_cons_iff.1 h with hpre | hin
    · cases (List.cons_prefix_cons.1 hpre).1
    · exact List.mem_cons_of_mem _ (ih hin)
  | case4 q c cs hc ih =>
    rcases List.infix_cons_iff.1 h with hpre | hin
    · obtain ⟨rfl, more, rfl⟩ := List.cons_prefix_cons.1 hpre
      rw [List.append_assoc, piecesFrom_hole hname, String.ofList_toList]
      simp
    · exact List.mem_cons_of_mem _ (ih hin)

theorem mem_holeNames : name ∈ holeNames ps ↔ ∃ q, Piece.hole name q ∈ ps := by
  rw [holeNames, List.mem_filterMap]
  constructor
  · rintro ⟨p, hp, hpname⟩
    cases p with
    | char c => cases hpname
    | hole found q =>
      cases hpname
      exact ⟨q, hp⟩
  · rintro ⟨q, hq⟩
    exact ⟨_, hq, rfl⟩

/-- Where the names are distinct, a name belongs to one hole. -/
theorem quoted_unique (hdistinct : (holeNames ps).Nodup) (h : Piece.hole name q ∈ ps)
    (h' : Piece.hole name q' ∈ ps) : q = q' := by
  have hapart := List.pairwise_filterMap.1 hdistinct
  refine List.Pairwise.forall_of_forall_of_flip
    (R := fun a b => a = .hole name q → b = .hole name q' → q = q') ?_
    (hapart.imp fun hab ha hb => ?_) (hapart.imp fun hab hb ha => ?_) h h' rfl rfl
  · rintro _ - rfl hsame
    exact (Piece.hole.inj hsame).2
  all_goals
    subst ha hb
    exact absurd rfl (hab name rfl name rfl)

/-- The piece of a hole tells whether the hole is found in its quotes. -/
theorem hole_mem_iff {pattern : String} (hdistinct : (holeNames (pieces pattern)).Nodup)
    (hname : name ∈ holeNames (pieces pattern)) :
    Piece.hole name q ∈ pieces pattern ↔ quotesHole pattern name = q := by
  obtain ⟨q₀, hq₀⟩ := mem_holeNames.1 hname
  have hquoted : Piece.hole name true ∈ pieces pattern ↔ quotesHole pattern name = true := by
    rw [quotesHole_iff_isInfix]
    constructor
    · intro h
      simpa using isInfix_of_hole_mem false _ h
    · exact hole_mem_of_isInfix (isName_of_mem_piecesFrom _ _ name hname) false _
  have hsame : quotesHole pattern name = q₀ := by
    cases q₀ with
    | true => exact hquoted.1 hq₀
    | false =>
      refine Bool.eq_false_iff.2 fun hfound => ?_
      cases quoted_unique hdistinct hq₀ (hquoted.2 hfound)
  rw [hsame]
  constructor
  · exact quoted_unique hdistinct hq₀
  · rintro rfl
    exact hq₀

/-! What a hole can capture. -/

theorem mayTake_of_mem_zip {caps : List (List Char)} {cap : List Char} (h : Splits ps cs caps)
    (hmem : (name, cap) ∈ (holeNames ps).zip caps) :
    ∃ q, Piece.hole name q ∈ ps ∧ MayTake q cap := by
  induction h with
  | nil => cases hmem
  | char _ ih =>
    obtain ⟨q, hq, htake⟩ := ih hmem
    exact ⟨q, List.mem_cons_of_mem _ hq, htake⟩
  | @hole found q₀ ps first cs caps hfirst _ ih =>
    rcases List.mem_cons.1 hmem with hsame | hlater
    · obtain ⟨rfl, rfl⟩ := Prod.mk.inj hsame
      exact ⟨q₀, List.mem_cons_self, hfirst⟩
    · obtain ⟨q, hq, htake⟩ := ih hlater
      exact ⟨q, List.mem_cons_of_mem _ hq, htake⟩

/-- A capture with as many quotes as the hole lets in, but no more than one. -/
def quoteIn (quoted : Bool) : List Char := if quoted then [] else ['"']

/-- A text that fits the pieces, with a quote in each hole that takes one. -/
def quoteEach : List Piece → List Char
  | [] => []
  | .char c :: ps => c :: quoteEach ps
  | .hole _ quoted :: ps => quoteIn quoted ++ quoteEach ps

/-- The quotes are captured: a hole takes at least one character, and one is enough here. -/
theorem fit_quoteEach (h : QuotesClosed ps) : ∃ caps, fit ps (quoteEach ps) = some caps ∧
    ∀ name q, Piece.hole name q ∈ ps → (name, quoteIn q) ∈ (holeNames ps).zip caps := by
  induction ps with
  | nil => exact ⟨[], rfl, by simp⟩
  | cons p ps ih =>
    cases p with
    | char c =>
      obtain ⟨caps, hfit, hmem⟩ := ih h
      refine ⟨caps, by rw [quoteEach, fit, if_pos rfl, hfit], fun name q hq => ?_⟩
      exact hmem name q (by simpa using hq)
    | hole found quoted =>
      obtain ⟨hquote, hclosed⟩ := h
      obtain ⟨caps, hfit, hmem⟩ := ih hclosed
      refine ⟨quoteIn quoted :: caps, ?_, fun name q hq => ?_⟩
      · cases quoted with
        | true =>
          obtain ⟨ps, rfl⟩ := List.head?_eq_some_iff.1 (hquote rfl)
          simp [quoteEach, quoteIn, fit] at hfit ⊢
          exact hfit
        | false => simp [quoteEach, quoteIn, fit, shortest, hfit]
      · rcases List.mem_cons.1 hq with hfirst | hlater
        · obtain ⟨rfl, rfl⟩ := Piece.hole.inj hfirst
          exact List.mem_cons_self
        · exact List.mem_cons_of_mem _ (hmem name q hlater)

/-- A hole is found in its quotes just where no statement gets a quote into it. -/
theorem quotesHole_iff_no_quote {pattern : String} (hdistinct : (holeNames (pieces pattern)).Nodup)
    (hname : name ∈ holeNames (pieces pattern)) : quotesHole pattern name = true ↔
      ∀ statement captured text, captures? pattern statement = some captured →
        (name, text) ∈ captured → '"' ∉ text.toList := by
  constructor
  · intro hquoted statement captured text hcaptured hmem
    obtain ⟨caps, hfit, rfl⟩ := Option.map_eq_some_iff.1 hcaptured
    rw [List.zip_map_right] at hmem
    obtain ⟨found, hfound, hsame⟩ := List.mem_map.1 hmem
    obtain ⟨rfl, rfl⟩ := Prod.mk.inj hsame
    obtain ⟨q, hq, htake⟩ := mayTake_of_mem_zip (splits_of_fit hfit) hfound
    rw [(hole_mem_iff hdistinct hname).1 hq |>.symm.trans hquoted] at htake
    rwa [String.toList_ofList]
  · intro hnone
    by_contra hfree
    have hhole := (hole_mem_iff hdistinct hname).2 (Bool.eq_false_iff.2 hfree)
    obtain ⟨caps, hfit, hmem⟩ := fit_quoteEach (quotesClosed_piecesFrom pattern.toList)
    have hcaptured : captures? pattern (String.ofList (quoteEach (pieces pattern))) =
        some ((holeNames (pieces pattern)).zip (caps.map String.ofList)) := by
      rw [captures?, String.toList_ofList, pieces, hfit]
      rfl
    have hquote : (name, String.ofList ['"']) ∈
        (holeNames (pieces pattern)).zip (caps.map String.ofList) := by
      rw [List.zip_map_right]
      exact List.mem_map.2 ⟨_, hmem name false hhole, rfl⟩
    apply hnone _ _ _ hcaptured hquote
    simp

theorem coerce_any_eq_text_iff :
    (∀ text, coerce name text .any q = .ok ⟨name, .text text⟩) ↔ q = true := by
  constructor
  · intro h
    by_contra hfree
    rw [Bool.eq_false_iff.2 hfree] at h
    have htruth : coerce name "true" .any false = .ok ⟨name, .boolean true⟩ := by
      have hlooks : inferType "true" = .boolean := by decide
      rw [coerce, HoleType.literalType, if_neg (by decide), hlooks]
      rfl
    cases htruth.symm.trans (h "true")
  · rintro rfl text
    rfl

/-- A hole without a declared type is bound to what its capture gives as anything. -/
theorem coerce_any_of_bind {w : Value} {t : Template} {statement text : String}
    {captured : List (String × String)} {b : Binding String Parameter} (hw : templateOf w = .ok t)
    (hfree : declaredType? w name = none) (hcaptured : t.captures? statement = some captured)
    (hmem : (name, text) ∈ captured) (hbind : t.bind captured = .ok b) :
    ∃ p ∈ b.args ++ b.expected.toList,
      coerce name text .any (quotesHole t.pattern.visible name) = .ok p := by
  have hnames := Template.names_of_captures? hw hcaptured
  obtain ⟨ps, hps, rfl⟩ := Template.coerced_of_bind hnames hbind
  obtain ⟨p, hp, type, htype, hcoerce⟩ := exists_of_mem_forall₂ hps.flip _ hmem
  obtain rfl : type = .any := by
    have hname := typeName?_of_templateOf hw _ htype
    rw [typeName?, hfree] at hname
    exact HoleType.name_injective (Option.some.inj hname.symm)
  refine ⟨p, ?_, hcoerce⟩
  -- the parameter is the expected one or an argument
  rw [List.mem_append]
  by_cases hexpected : some p.name = t.expected
  · right
    have hdistinct : (ps.map (·.name)).Nodup := by
      rw [Template.names_of_coerced hps, hnames]
      exact (Template.wellFormed_of_templateOf hw).distinct
    rw [← hexpected, Option.elim_some, Template.find?_name hdistinct hp]
    exact List.mem_singleton_self p
  · left
    exact List.mem_filter.2 ⟨hp, by simpa using hexpected⟩

/-- In a pattern whose names are distinct, a hole takes everything up to the next quote just where
binding finds it in its quotes. So a hole without a declared type is bound as a text, whatever it
looks like, just where no statement gets a quote into it; elsewhere the looks decide. -/
theorem quoting_agrees {pattern : String} (hdistinct : (holeNames (pieces pattern)).Nodup)
    {name : String} (hname : name ∈ holeNames (pieces pattern)) :
    (∀ q, Piece.hole name q ∈ pieces pattern ↔ quotesHole pattern name = q) ∧
    ((∀ text, coerce name text .any (quotesHole pattern name) = .ok ⟨name, .text text⟩) ↔
      ∀ statement captured text, captures? pattern statement = some captured →
        (name, text) ∈ captured → '"' ∉ text.toList) ∧
    ∀ w t statement captured text b, templateOf w = .ok t → t.pattern.visible = pattern →
      declaredType? w name = none → t.captures? statement = some captured →
      (name, text) ∈ captured → t.bind captured = .ok b →
        ∃ p ∈ b.args ++ b.expected.toList,
          coerce name text .any (quotesHole pattern name) = .ok p := by
  refine ⟨fun q => hole_mem_iff hdistinct hname, ?_, ?_⟩
  · rw [coerce_any_eq_text_iff]
    exact quotesHole_iff_no_quote hdistinct hname
  · rintro w t statement captured text b hw rfl hfree hcaptured hmem hbind
    exact coerce_any_of_bind hw hfree hcaptured hmem hbind

/-- Two holes share a quote, and the third is in braces of its own. -/
def noteEntry : Value :=
  .record [("kind", .text "GIVEN"), ("operation", .text "book"),
    ("pattern", .text "\"\x7bwho\x7d\"\x7bnote\x7d\"\x7b\x7bsum\x7d\x7d\"")]

def noteTemplate : Template :=
  ⟨.context, "\"\x7bwho\x7d\"\x7bnote\x7d\"\x7b\x7bsum\x7d\x7d\"", "book",
    [("who", .any), ("note", .any), ("sum", .any)], none, none, .eq, false⟩

theorem quoting_agrees_note :
    templateOf noteEntry = .ok noteTemplate ∧ declaredType? noteEntry "note" = none ∧
    (holeNames (pieces noteTemplate.pattern.visible)).Nodup ∧
    Piece.hole "note" true ∈ pieces noteTemplate.pattern.visible ∧
    (∀ statement captured text, captures? noteTemplate.pattern.visible statement = some captured →
      ("note", text) ∈ captured → '"' ∉ text.toList) ∧
    ∃ captured b, noteTemplate.captures? "\"true\"7\"\x7b12\x7d\"" = some captured ∧
      noteTemplate.bind captured = .ok b ∧ ⟨"note", .text "7"⟩ ∈ b.args ++ b.expected.toList := by
  have hread : templateOf noteEntry = .ok noteTemplate := eq_ok_of_toOption (by decide +kernel)
  have hfree : declaredType? noteEntry "note" = none := by decide +kernel
  have hcaptured : noteTemplate.captures? "\"true\"7\"\x7b12\x7d\"" =
      some [("who", "true"), ("note", "7"), ("sum", "12")] := by decide +kernel
  have hbind : noteTemplate.bind [("who", "true"), ("note", "7"), ("sum", "12")] = .ok ⟨"book",
      [⟨"who", .text "true"⟩, ⟨"note", .text "7"⟩, ⟨"sum", .int 12⟩], none, .eq, false⟩ :=
    eq_ok_of_toOption (by decide +kernel)
  have hdistinct : (holeNames (pieces noteTemplate.pattern.visible)).Nodup := by decide +kernel
  have hhole : Piece.hole "note" true ∈ pieces noteTemplate.pattern.visible := by decide +kernel
  obtain ⟨hsame, hquote, hbound⟩ := quoting_agrees hdistinct (mem_holeNames.2 ⟨true, hhole⟩)
  have hfound := (hsame true).1 hhole
  rw [hfound] at hquote hbound
  obtain ⟨p, hp, hcoerce⟩ := hbound _ _ _ _ "7" _ hread rfl hfree hcaptured (by simp) hbind
  cases hcoerce
  exact ⟨hread, hfree, hdistinct, hhole, hquote.1 fun text => rfl, _, _, hcaptured, hbind, hp⟩

end Acceptance.Registry

import Acceptance.Proofs.BoundSteps
import Acceptance.Proofs.TemplateOrder
/-!
A registry with one more template. What was resolved stays as it is or becomes ambiguous, and what was
ambiguous stays so; no template takes a statement away from another. Only where nothing but type
mismatches was found a new template can resolve a statement.
-/
namespace Acceptance

section Inserting

variable {α β ε : Type} {x : Option α} {xs ys : List α}

/-- The second list is the first with at most one more entry somewhere. -/
def Inserts (x : Option α) (xs ys : List α) : Prop :=
  ∃ before after, xs = before ++ after ∧ ys = before ++ (x.toList ++ after)

namespace Inserts

theorem filterMap (h : Inserts x xs ys) (f : α → Option β) :
    Inserts (x.bind f) (xs.filterMap f) (ys.filterMap f) := by
  obtain ⟨before, after, rfl, rfl⟩ := h
  refine ⟨before.filterMap f, after.filterMap f, List.filterMap_append, ?_⟩
  rw [List.filterMap_append, List.filterMap_append]
  cases x with
  | none => rfl
  | some a => cases hf : f a <;> simp [hf]

theorem filter (h : Inserts x xs ys) (p : α → Bool) :
    Inserts (x.filter p) (xs.filter p) (ys.filter p) := by
  obtain ⟨before, after, rfl, rfl⟩ := h
  refine ⟨before.filter p, after.filter p, List.filter_append .., ?_⟩
  rw [List.filter_append, List.filter_append]
  cases x with
  | none => rfl
  | some a => cases hp : p a <;> simp [Option.filter, hp]

theorem sublist (h : Inserts x xs ys) : xs.Sublist ys := by
  obtain ⟨before, after, rfl, rfl⟩ := h
  exact (List.Sublist.refl before).append (List.sublist_append_right ..)

theorem length_le (h : Inserts x xs ys) : ys.length ≤ xs.length + 1 := by
  obtain ⟨before, after, rfl, rfl⟩ := h
  rw [List.length_append, List.length_append, List.length_append]
  have hone : x.toList.length ≤ 1 := by cases x <;> simp
  omega

theorem eq_of_none (h : Inserts none xs ys) : ys = xs := by
  obtain ⟨before, after, rfl, rfl⟩ := h
  rfl

theorem of_nil (h : Inserts x [] ys) : ys = x.toList := by
  obtain ⟨before, after, hnil, rfl⟩ := h
  obtain ⟨rfl, rfl⟩ := List.append_eq_nil_iff.1 hnil.symm
  simp

/-- One entry becomes two, the new one in front or behind. -/
theorem of_singleton {a : α} (h : Inserts x [a] ys) :
    ys = [a] ∨ ∃ b ∈ x, ys = [b, a] ∨ ys = [a, b] := by
  obtain ⟨before, after, hone, rfl⟩ := h
  cases x with
  | none => exact .inl hone.symm
  | some b =>
    refine .inr ⟨b, rfl, ?_⟩
    rcases List.append_eq_singleton_iff.1 hone.symm with ⟨rfl, rfl⟩ | ⟨rfl, rfl⟩
    · exact .inl rfl
    · exact .inr rfl

/-- Results of the longer list are those of the shorter one, with at most one more. -/
theorem mapM {f : α → Except ε β} (h : Inserts x xs ys) {bs cs : List β} (hbs : xs.mapM f = .ok bs)
    (hcs : ys.mapM f = .ok cs) : ∃ b, Inserts b bs cs ∧ ∀ c ∈ b, ∃ a ∈ x, f a = .ok c := by
  obtain ⟨before, after, rfl, rfl⟩ := h
  rw [List.mapM_append] at hbs hcs
  obtain ⟨first, hfirst, hbs⟩ := bind_eq_ok.1 hbs
  obtain ⟨last, hlast, hbs⟩ := bind_eq_ok.1 hbs
  obtain ⟨first', hfirst', hcs⟩ := bind_eq_ok.1 hcs
  obtain ⟨rest, hrest, hcs⟩ := bind_eq_ok.1 hcs
  cases hbs
  cases hcs
  cases hfirst.symm.trans hfirst'
  cases x with
  | none =>
    cases hlast.symm.trans hrest
    exact ⟨none, ⟨first, last, rfl, rfl⟩, by simp⟩
  | some a =>
    obtain ⟨c, last', hc, hlast', rfl⟩ := mapM_cons_eq_ok.1 hrest
    cases hlast.symm.trans hlast'
    exact ⟨some c, ⟨first, last, rfl, rfl⟩, by simpa using hc⟩

end Inserts

end Inserting

namespace Resolution

open Template

/-- What a finding may become if there is one more binding, or none, and maybe one more mismatch. -/
structure Grows (x : Option (Template × Binding String Parameter)) (f g : Finding) : Prop where
  resolved : ∀ b, f = .resolved b → g = .resolved b ∨ ∃ c ∈ x, ∃ ps, ps.length = 2 ∧
    (g = .ambiguous [c.2.operation, b.operation] ps ∨ g = .ambiguous [b.operation, c.2.operation] ps)
  ambiguous : ∀ cs ps, f = .ambiguous cs ps → ∃ ds qs, g = .ambiguous ds qs ∧
    cs.length = ps.length ∧ ds.length = qs.length ∧ (cs.zip ps).Sublist (ds.zip qs) ∧
      ds.length ≤ cs.length + 1
  mismatch : ∀ detail cs, f = .unresolved .typeMismatch detail cs →
    (∃ c ∈ x, g = .resolved c.2) ∨
      ∃ detail' ds, g = .unresolved .typeMismatch detail' ds ∧ cs.Sublist ds

section Verdict

variable {x : Option (Template × Binding String Parameter)}
  {bs cs : List (Template × Binding String Parameter)} {y : Option (String × TypeMismatch)}
  {ms ns : List (String × TypeMismatch)} {near near' : List Phrase}

theorem verdict_of_two (h : 2 ≤ bs.length) :
    verdict bs ms near = .ambiguous (bs.map (·.2.operation)) (bs.map (·.1.pattern)) := by
  rcases bs with _ | ⟨x, _ | ⟨y, bs⟩⟩
  · exact absurd h (by simp)
  · exact absurd h (by simp)
  · rfl

theorem verdict_grows (near near' : List Phrase) (hbound : Inserts x bs cs)
    (hmismatch : Inserts y ms ns) :
    Grows x (verdict bs ms near) (verdict cs ns near') := by
  rcases bs with _ | ⟨b, _ | ⟨b', bs⟩⟩
  · -- nothing is bound, so all that can be bound is the new one
    have hcs := hbound.of_nil
    by_cases hms : ms = []
    · subst hms
      exact ⟨nofun, nofun, nofun⟩
    · have hf : verdict [] ms near = mismatched ms := if_neg (by simpa using hms)
      rw [hf]
      refine ⟨nofun, nofun, fun detail candidates h => ?_⟩
      cases h
      cases x with
      | some c =>
        rw [hcs]
        exact .inl ⟨c, rfl, rfl⟩
      | none =>
        have hns : ns ≠ [] := fun hnil => hms (List.sublist_nil.1 (hnil ▸ hmismatch.sublist))
        have hg : verdict [] ns near' = mismatched ns := if_neg (by simpa using hns)
        rw [hcs]
        exact .inr ⟨_, _, hg, hmismatch.sublist.map _⟩
  · refine ⟨fun c h => ?_, nofun, nofun⟩
    cases h
    rcases hbound.of_singleton with rfl | ⟨c, hc, rfl | rfl⟩
    · exact .inl rfl
    · exact .inr ⟨c, hc, _, rfl, .inl rfl⟩
    · exact .inr ⟨c, hc, _, rfl, .inr rfl⟩
  · refine ⟨nofun, fun candidates patterns h => ?_, nofun⟩
    cases h
    have htwo : 2 ≤ cs.length := le_trans (by simp) hbound.sublist.length_le
    refine ⟨_, _, verdict_of_two htwo, by simp, by simp, ?_, by simpa using hbound.length_le⟩
    rw [List.zip_map', List.zip_map']
    exact hbound.sublist.map _

/-- Without a new binding or mismatch all but the hints stays as it is. -/
theorem verdict_eq (h : ∀ detail candidates, verdict bs ms near ≠ .unresolved .noMatch detail candidates) :
    verdict bs ms near' = verdict bs ms near := by
  rcases bs with _ | ⟨b, _ | ⟨b', bs⟩⟩
  · by_cases hms : ms = []
    · subst hms
      exact absurd rfl (h _ _)
    · have hsame (ps : List Phrase) : verdict [] ms ps = mismatched ms := if_neg (by simpa using hms)
      rw [hsame, hsame]
  · rfl
  · rfl

end Verdict

end Resolution

namespace Registry

open Resolution

section Trying

variable {statement : String}

theorem operation_of_attempt {t : Template} {b : Binding String Parameter}
    (h : t.attempt statement = .ok (.bound b)) : b.operation = t.operation := by
  obtain ⟨captured, -, hbind⟩ := Template.exists_bind_of_attempt h
  exact (Template.bind_cases hbind).1

/-- A template that does not match adds neither a binding nor a mismatch. -/
theorem attempt_of_captures {t : Template} (h : t.captures? statement = none) :
    t.attempt statement = .ok .apart := by
  rw [Template.attempt, h]

end Trying

theorem inserts_ofKind (r : Registry) (before after : List Template) (t : Template) (kind : Kind) :
    Inserts ((some t).filter (·.kind = kind))
      (ofKind { r with templates := before ++ after } kind)
      (ofKind { r with templates := before ++ t :: after } kind) :=
  Inserts.filter ⟨before, after, rfl, rfl⟩ _

/-- Adding a template can only add ambiguity. What was resolved is resolved as before or ambiguous
between two, what was ambiguous keeps its candidates, and what had type mismatches only is resolved by
the new template or keeps them. A template of another kind, or one that does not match, changes none
of these findings. -/
theorem resolve_insert (r : Registry) (before after : List Template) (t : Template) (kind : Kind)
    (statement : String) {f g : Finding}
    (hf : resolve { r with templates := before ++ after } kind statement = .ok f)
    (hg : resolve { r with templates := before ++ t :: after } kind statement = .ok g) :
    (∀ b, f = .resolved b → g = .resolved b ∨ ∃ ps, ps.length = 2 ∧
      (g = .ambiguous [t.operation, b.operation] ps ∨
        g = .ambiguous [b.operation, t.operation] ps)) ∧
    (∀ cs ps, f = .ambiguous cs ps → ∃ ds qs, g = .ambiguous ds qs ∧ cs.length = ps.length ∧
      ds.length = qs.length ∧ (cs.zip ps).Sublist (ds.zip qs) ∧ ds.length ≤ cs.length + 1) ∧
    (∀ detail cs, f = .unresolved .typeMismatch detail cs →
      (∃ b, t.kind = kind ∧ t.attempt (Text.normalize statement) = .ok (.bound b) ∧
        g = .resolved b) ∨
      ∃ detail' ds, g = .unresolved .typeMismatch detail' ds ∧ cs.Sublist ds) ∧
    (t.kind ≠ kind ∨ t.captures? (Text.normalize statement) = none →
      (∀ detail cs, f ≠ .unresolved .noMatch detail cs) → g = f) := by
  obtain ⟨tried, htried, rfl⟩ := resolve_eq_ok.1 hf
  obtain ⟨tried', htried', rfl⟩ := resolve_eq_ok.1 hg
  obtain ⟨x, hx, hnew⟩ := (inserts_ofKind r before after t kind).mapM htried htried'
  -- whatever is new comes from the template that is
  have hfrom : ∀ y ∈ x, y.1 = t ∧ t.kind = kind ∧ t.attempt (Text.normalize statement) = .ok y.2 := by
    intro y hy
    obtain ⟨u, hu, hhold⟩ := hnew y hy
    obtain ⟨hut, hkind⟩ := Option.filter_eq_some_iff.1 hu
    cases hut
    obtain ⟨hsame, hattempt⟩ := hold_eq_ok.1 hhold
    exact ⟨hsame, of_decide_eq_true hkind, hattempt⟩
  have hbound : ∀ c ∈ x.bind boundOf, t.kind = kind ∧
      t.attempt (Text.normalize statement) = .ok (.bound c.2) := by
    intro c hc
    obtain ⟨y, hy, hyc⟩ := Option.bind_eq_some_iff.1 hc
    obtain ⟨-, hkind, hattempt⟩ := hfrom y hy
    rw [boundOf_eq_some.1 hyc] at hattempt
    exact ⟨hkind, hattempt⟩
  have hgrows := verdict_grows (Text.closest (Text.normalize statement) (tried.map (·.1.pattern)))
    (Text.closest (Text.normalize statement) (tried'.map (·.1.pattern)))
    (hx.filterMap boundOf) (hx.filterMap mismatchOf)
  rw [← ofAttempts_eq, ← ofAttempts_eq] at hgrows
  refine ⟨fun b hb => ?_, hgrows.ambiguous, fun detail cs h => ?_, fun hapart hmatch => ?_⟩
  · refine (hgrows.resolved b hb).imp_right ?_
    rintro ⟨c, hc, ps, hps, hg⟩
    rw [operation_of_attempt (hbound c hc).2] at hg
    exact ⟨ps, hps, hg⟩
  · refine (hgrows.mismatch detail cs h).imp_left ?_
    rintro ⟨c, hc, hg⟩
    exact ⟨c.2, (hbound c hc).1, (hbound c hc).2, hg⟩
  · -- then there is no binding and no mismatch that was not there
    have hnone : x.bind boundOf = none ∧ x.bind mismatchOf = none := by
      cases x with
      | none => exact ⟨rfl, rfl⟩
      | some y =>
        obtain ⟨-, hkind, hattempt⟩ := hfrom y rfl
        have hcaptures := hapart.resolve_left (not_not_intro hkind)
        have hy : y.2 = .apart := Except.ok.inj (hattempt.symm.trans (attempt_of_captures hcaptures))
        simp [boundOf, mismatchOf, hy, Template.Attempt.binding?, Template.Attempt.mismatch?]
    have hbs := hx.filterMap boundOf
    have hms := hx.filterMap mismatchOf
    rw [hnone.1] at hbs
    rw [hnone.2] at hms
    rw [ofAttempts_eq] at hmatch ⊢
    rw [ofAttempts_eq, hbs.eq_of_none, hms.eq_of_none]
    exact verdict_eq hmatch

/-- The template for opening things, and the one for doors that is added behind it. -/
def openingTemplate : Template :=
  ⟨.action, "the \x7bthing\x7d is opened", "open_it", [("thing", .any)], none, none, .eq, false⟩

def doorTemplate : Template :=
  ⟨.action, "the door is \x7bstate\x7d", "move_door", [("state", .any)], none, none, .eq, false⟩

def openingsOnly : Value :=
  .record [("module", .text "house"), ("templates", .list [
    .record [("kind", .text "WHEN"), ("pattern", .text "the \x7bthing\x7d is opened"),
      ("operation", .text "open_it")]])]

/-- A statement that was resolved becomes ambiguous between two. -/
theorem resolve_insert_openings :
    Registry.ofValue openingsOnly "house.yaml" =
      .ok { openingsRegistry with templates := [openingTemplate] } ∧
    Registry.ofValue openings "house.yaml" =
      .ok { openingsRegistry with templates := [openingTemplate, doorTemplate] } ∧
    ∃ b g, resolve { openingsRegistry with templates := [openingTemplate] } .action
        "the door is  opened" = .ok (.resolved b) ∧
      resolve { openingsRegistry with templates := [openingTemplate, doorTemplate] } .action
        "the door is  opened" = .ok g ∧ g ≠ .resolved b ∧
      ∃ ps, ps.length = 2 ∧ (g = .ambiguous ["move_door", b.operation] ps ∨
        g = .ambiguous [b.operation, "move_door"] ps) := by
  have hf : resolve { openingsRegistry with templates := [openingTemplate] } .action
      "the door is  opened" = .ok (.resolved ⟨"open_it", [⟨"thing", .text "door"⟩], none, .eq, false⟩) :=
    eq_ok_of_toOption (by decide +kernel)
  have hg : resolve { openingsRegistry with templates := [openingTemplate, doorTemplate] } .action
      "the door is  opened" = .ok (.ambiguous ["open_it", "move_door"]
        ["the \x7bthing\x7d is opened", "the door is \x7bstate\x7d"]) :=
    eq_ok_of_toOption (by decide +kernel)
  obtain ⟨hresolved, -⟩ := resolve_insert openingsRegistry [openingTemplate] [] doorTemplate .action
    "the door is  opened" hf hg
  exact ⟨eq_ok_of_toOption (by decide +kernel), eq_ok_of_toOption (by decide +kernel), _, _, hf, hg,
    nofun, (hresolved _ rfl).resolve_left nofun⟩

end Registry

end Acceptance

import Mathlib.Data.List.Perm.Basic
/-!
Results that may fail: how a chain of them succeeds or fails, and how a list of them does.
-/
namespace Acceptance

variable {ε ε' α β : Type}

variable {f : α → Except ε β} {e : ε} {a : α} {as : List α} {bs : List β}

theorem ok_bind (a : α) (f : α → Except ε β) : (Except.ok a >>= f) = f a := rfl

theorem error_bind (e : ε) (f : α → Except ε β) : (Except.error e >>= f) = .error e := rfl

theorem bind_eq_ok {x : Except ε α} {b : β} : (x >>= f) = .ok b ↔ ∃ a, x = .ok a ∧ f a = .ok b := by
  cases x <;> simp [bind, Except.bind]

theorem bind_eq_error {x : Except ε α} :
    (x >>= f) = .error e ↔ x = .error e ∨ ∃ a, x = .ok a ∧ f a = .error e := by
  cases x <;> simp [bind, Except.bind]

theorem map_eq_ok {x : Except ε α} {g : α → β} {b : β} : x.map g = .ok b ↔ ∃ a, x = .ok a ∧ g a = b := by
  cases x <;> simp [Except.map]

theorem map_eq_error {x : Except ε α} {g : α → β} : x.map g = .error e ↔ x = .error e := by
  cases x <;> simp [Except.map]

theorem eq_ok_of_mapError {x : Except ε α} {f : ε → ε'} (h : x.mapError f = .ok a) : x = .ok a := by
  cases x with
  | ok b => simpa [Except.mapError] using h
  | error e => simp [Except.mapError] at h

theorem eq_ok_of_toOption {x : Except ε α} (h : x.toOption = some a) : x = .ok a := by
  cases x with
  | ok b => simpa [Except.toOption] using h
  | error e => cases h

theorem exists_ok_of_isOk {x : Except ε α} (h : x.isOk = true) : ∃ a, x = .ok a := by
  cases x with
  | ok a => exact ⟨a, rfl⟩
  | error e => cases h

/-- A list of results succeeds with just the list of what each of them gives. -/
theorem mapM_eq_ok :
    as.mapM f = .ok bs ↔ List.Forall₂ (fun a b => f a = .ok b) as bs := by
  induction as generalizing bs with
  | nil => simp [pure, Except.pure, eq_comm]
  | cons a as ih =>
    rw [List.mapM_cons, bind_eq_ok]
    constructor
    · rintro ⟨b, hb, h⟩
      obtain ⟨bs', hbs, h⟩ := bind_eq_ok.1 h
      cases h
      exact .cons hb (ih.1 hbs)
    · intro h
      cases h with
      | cons hb hbs => exact ⟨_, hb, bind_eq_ok.2 ⟨_, ih.2 hbs, rfl⟩⟩

theorem mapM_cons_eq_ok :
    (a :: as).mapM f = .ok bs ↔ ∃ b rest, f a = .ok b ∧ as.mapM f = .ok rest ∧ bs = b :: rest := by
  simp only [mapM_eq_ok, List.forall₂_cons_left_iff]

theorem exists_of_mem_forall₂ {R : α → β → Prop} (h : List.Forall₂ R as bs) :
    ∀ b ∈ bs, ∃ a ∈ as, R a b := by
  induction h with
  | nil => simp
  | cons hab _ ih =>
    refine List.forall_mem_cons.2 ⟨⟨_, List.mem_cons_self, hab⟩, fun b hb => ?_⟩
    obtain ⟨a, ha, hR⟩ := ih b hb
    exact ⟨a, List.mem_cons_of_mem _ ha, hR⟩

theorem forall₂_mem {R : α → β → Prop} (h : List.Forall₂ R as bs) :
    List.Forall₂ (fun a b => a ∈ as ∧ b ∈ bs ∧ R a b) as bs := by
  refine List.forall₂_iff_zip.2 ⟨h.length_eq, fun hab => ?_⟩
  obtain ⟨ha, hb⟩ := List.of_mem_zip hab
  exact ⟨ha, hb, (List.forall₂_iff_zip.1 h).2 hab⟩

theorem exists_of_mem_mapM (h : as.mapM f = .ok bs) : ∀ b ∈ bs, ∃ a ∈ as, f a = .ok b :=
  exists_of_mem_forall₂ (mapM_eq_ok.1 h)

/-- Where related sources give related results, so do lists of them. -/
theorem exists_mapM_of_forall₂ {γ δ : Type} {g : γ → Except ε δ} {R : α → γ → Prop}
    {S : β → δ → Prop} (hf : ∀ a c b, R a c → f a = .ok b → ∃ d, g c = .ok d ∧ S b d) {cs : List γ}
    (hR : List.Forall₂ R as cs) (h : as.mapM f = .ok bs) :
    ∃ ds, cs.mapM g = .ok ds ∧ List.Forall₂ S bs ds := by
  induction hR generalizing bs with
  | nil =>
    cases h
    exact ⟨[], rfl, .nil⟩
  | cons hac _ ih =>
    obtain ⟨b, bs, hb, hbs, rfl⟩ := mapM_cons_eq_ok.1 h
    obtain ⟨d, hd, hbd⟩ := hf _ _ b hac hb
    obtain ⟨ds, hds, hrest⟩ := ih hbs
    exact ⟨d :: ds, mapM_cons_eq_ok.2 ⟨d, ds, hd, hds, rfl⟩, .cons hbd hrest⟩

/-- Where each result has a property just if its source has one, all have it together. -/
theorem forall_mem_iff_of_forall₂ {P : α → Prop} {Q : β → Prop}
    (h : List.Forall₂ (fun a b => Q b ↔ P a) as bs) : (∀ b ∈ bs, Q b) ↔ ∀ a ∈ as, P a := by
  induction h with
  | nil => simp
  | cons hab _ ih =>
    rw [List.forall_mem_cons, List.forall_mem_cons]
    exact and_congr hab ih

theorem forall_mem_mapM_iff {P : α → Prop} {Q : β → Prop} (hf : ∀ a b, f a = .ok b → (Q b ↔ P a))
    (h : as.mapM f = .ok bs) : (∀ b ∈ bs, Q b) ↔ ∀ a ∈ as, P a :=
  forall_mem_iff_of_forall₂ ((mapM_eq_ok.1 h).imp hf)

/-- What each result keeps of its source is kept along the list. -/
theorem map_eq_of_mapM {γ : Type} {g : β → γ} {k : α → γ} (hf : ∀ a b, f a = .ok b → g b = k a)
    (h : as.mapM f = .ok bs) : bs.map g = as.map k := by
  have hall := mapM_eq_ok.1 h
  clear h
  induction hall with
  | nil => rfl
  | cons hb _ ih => rw [List.map_cons, List.map_cons, hf _ _ hb, ih]

theorem mapM_eq_error :
    (∃ e, as.mapM f = .error e) ↔ ∃ a ∈ as, ∃ e, f a = .error e := by
  induction as with
  | nil => simp [pure, Except.pure]
  | cons a as ih =>
    simp only [List.mapM_cons, List.mem_cons, exists_eq_or_imp, ← ih]
    cases f a <;> cases as.mapM f <;> simp [bind, Except.bind, pure, Except.pure]

/-- A list of results fails with the error of one of them. -/
theorem exists_error_of_mapM (h : as.mapM f = .error e) : ∃ a ∈ as, f a = .error e := by
  induction as with
  | nil => cases h
  | cons a as ih =>
    rw [List.mapM_cons] at h
    rcases bind_eq_error.1 h with hfirst | ⟨b, -, hlater⟩
    · exact ⟨a, List.mem_cons_self, hfirst⟩
    · rcases bind_eq_error.1 hlater with hlater | ⟨bs, -, hnone⟩
      · obtain ⟨a', ha', herror⟩ := ih hlater
        exact ⟨a', List.mem_cons_of_mem _ ha', herror⟩
      · cases hnone

theorem mapM_isOk :
    (∃ bs, as.mapM f = .ok bs) ↔ ∀ a ∈ as, ∃ b, f a = .ok b := by
  have hok {γ : Type} (x : Except ε γ) : (∃ b, x = .ok b) ↔ ¬∃ e, x = .error e := by
    cases x <;> simp
  simp only [hok, mapM_eq_error]
  simp

/-- The order of a list decides about the order of its results only. -/
theorem mapM_perm {as' : List α} (h : as.Perm as') (hbs : as.mapM f = .ok bs) :
    ∃ bs', as'.mapM f = .ok bs' ∧ bs.Perm bs' := by
  have hc : Relation.Comp (List.Forall₂ fun b a => f a = .ok b) List.Perm bs as' :=
    ⟨as, (mapM_eq_ok.1 hbs).flip, h⟩
  rw [List.forall₂_comp_perm_eq_perm_comp_forall₂] at hc
  obtain ⟨bs', hp, hbs'⟩ := hc
  exact ⟨bs', mapM_eq_ok.2 hbs'.flip, hp⟩

/-- A result that fails does so for an error of the kind. -/
def FailsFor (Q : ε → Prop) (x : Except ε α) : Prop := ∀ e, x = .error e → Q e

namespace FailsFor

variable {Q : ε → Prop} {x : Except ε α}

theorem ok (a : α) : FailsFor Q (.ok a) := by
  intro e h
  cases h

theorem error (h : Q e) : FailsFor Q (.error e : Except ε α) := by
  intro e' h'
  cases h'
  exact h

theorem bind (hx : FailsFor Q x) (hf : ∀ a, x = .ok a → FailsFor Q (f a)) :
    FailsFor Q (x >>= f) := by
  intro e h
  rcases bind_eq_error.1 h with herror | ⟨a, ha, herror⟩
  · exact hx e herror
  · exact hf a ha e herror

theorem map {f : α → β} (hx : FailsFor Q x) : FailsFor Q (x.map f) := by
  cases x with
  | ok a => exact ok (f a)
  | error e => exact error (hx e rfl)

theorem mapError {Q' : ε' → Prop} {f : ε → ε'} (hx : FailsFor Q x) (h : ∀ e, Q e → Q' (f e)) :
    FailsFor Q' (x.mapError f) := by
  cases x with
  | ok a => exact ok a
  | error e => exact error (h e (hx e rfl))

theorem mapM (h : ∀ a ∈ as, FailsFor Q (f a)) : FailsFor Q (as.mapM f) := by
  intro e he
  obtain ⟨a, ha, herror⟩ := exists_error_of_mapM he
  exact h a ha e herror

end FailsFor

end Acceptance

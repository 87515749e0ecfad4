import Mathlib.Algebra.Field.Rat
import Mathlib.Algebra.Order.Field.Basic
import Mathlib.Algebra.Order.Ring.Rat
import Mathlib.Data.Prod.Lex
import Acceptance.Proofs.AcceptedRegistry
import Acceptance.Proofs.TextOrder
import Acceptance.Resolution.Resolve
/-!
The order of the templates in a registry does not decide how a statement is resolved. Ties between
hints are the one place where it could: there the scores and then the texts themselves decide, and
this is a linear order.
-/
namespace Acceptance

namespace Text

namespace Likeness

/-- The likeness as a number. -/
def ratio (l : Likeness) : ℚ := l.matched / l.total

theorem less_iff {l m : Likeness} (hl : 0 < l.total) (hm : 0 < m.total) :
    l.less m = true ↔ l.ratio < m.ratio := by
  have hl' : (0 : ℚ) < l.total := by exact_mod_cast hl
  have hm' : (0 : ℚ) < m.total := by exact_mod_cast hm
  rw [ratio, ratio, div_lt_div_iff₀ hl' hm', less, decide_eq_true_eq]
  exact_mod_cast Iff.rfl

end Likeness

/-- What decides between two scored texts: the score, and between equal scores the text. -/
def rank (x : Likeness × Phrase) : ℚ ×ₗ List ℕ := toLex (x.1.ratio, x.2.points)

theorem better_eq {x y : Likeness × Phrase} (hx : 0 < x.1.total) (hy : 0 < y.1.total) :
    better x y = decide (rank y ≤ rank x) := by
  rw [Bool.eq_iff_iff, decide_eq_true_eq, rank, rank, Prod.Lex.toLex_le_toLex]
  simp only [better, Bool.or_eq_true, Bool.and_eq_true, Bool.not_eq_true', Likeness.less_iff hy hx,
    pointsLe_iff, ← Bool.not_eq_true, Likeness.less_iff hx hy]
  constructor
  · rintro (h | ⟨h, hp⟩)
    · exact .inl h
    · rcases lt_or_eq_of_le (not_lt.1 h) with h' | h'
      · exact .inl h'
      · exact .inr ⟨h', hp⟩
  · rintro (h | ⟨h, hp⟩)
    · exact .inl h
    · exact .inr ⟨h.le.not_gt, hp⟩

/-- Scored texts that come in another order are sorted alike, where equal rank is equality. -/
theorem mergeSort_better_eq {xs ys : List (Likeness × Phrase)} (h : xs.Perm ys)
    (hpos : ∀ x ∈ xs, 0 < x.1.total)
    (hinj : ∀ x ∈ xs, ∀ y ∈ xs, rank x = rank y → x = y) :
    xs.mergeSort better = ys.mergeSort better := by
  let le := fun x y : Likeness × Phrase => decide (rank y ≤ rank x)
  have hle (zs : List (Likeness × Phrase)) (hzs : zs.Perm xs) :
      zs.mergeSort better = zs.mergeSort le := by
    have hsame : ∀ x ∈ zs, ∀ y ∈ zs, better x y = le (id x) (id y) := fun x hx y hy =>
      better_eq (hpos x (hzs.mem_iff.1 hx)) (hpos y (hzs.mem_iff.1 hy))
    simpa using List.map_mergeSort hsame
  have htrans (x y z) (hxy : le x y = true) (hyz : le y z = true) : le x z = true := by
    simp only [le, decide_eq_true_eq] at hxy hyz ⊢
    exact hyz.trans hxy
  have htotal (x y) : (le x y || le y x) = true := by
    simpa [le] using le_total (rank y) (rank x)
  have hsorted (zs : List (Likeness × Phrase)) : (zs.mergeSort le).Pairwise fun x y => le x y = true :=
    List.pairwise_mergeSort htrans htotal zs
  rw [hle xs (.refl _), hle ys h.symm]
  refine List.Perm.eq_of_pairwise ?_ (hsorted xs) (hsorted ys)
    ((List.mergeSort_perm xs le).trans (h.trans (List.mergeSort_perm ys le).symm))
  intro x y hx hy hxy hyx
  simp only [le, decide_eq_true_eq] at hxy hyx
  exact hinj x (List.mem_mergeSort.1 hx) y (h.mem_iff.2 (List.mem_mergeSort.1 hy))
    (le_antisymm hyx hxy)

/-- The closest of some texts do not depend on the order in which they are offered. -/
theorem closest_eq_of_perm (text : Phrase) {cs ds : List Phrase} (h : cs.Perm ds)
    (hne : ∀ c ∈ cs, c.points ≠ []) : closest text cs = closest text ds := by
  simp only [closest]
  rw [mergeSort_better_eq ((h.map _).filter _)]
  · intro x hx
    obtain ⟨hx, -⟩ := List.mem_filter.1 hx
    obtain ⟨c, hc, rfl⟩ := List.mem_map.1 hx
    have := List.length_pos_of_ne_nil (hne c hc)
    simp only [likeness]
    omega
  · intro x hx y hy hxy
    obtain ⟨c, -, rfl⟩ := List.mem_map.1 (List.mem_filter.1 hx).1
    obtain ⟨d, -, rfl⟩ := List.mem_map.1 (List.mem_filter.1 hy).1
    have hp : c.points = d.points := congrArg (fun z => (ofLex z).2) hxy
    simp only [Prod.mk.injEq, hp, true_and]
    cases c; cases d
    exact congrArg Phrase.mk hp

end Text

namespace Resolution

/-- Findings that differ at most in the order of what they list. -/
def Alike : Finding → Finding → Prop
  | .resolved b, .resolved c => b = c
  | .ambiguous cs ps, .ambiguous ds qs =>
    cs.length = ps.length ∧ ds.length = qs.length ∧ (cs.zip ps).Perm (ds.zip qs)
  | .unresolved .typeMismatch _ cs, .unresolved .typeMismatch _ ds => cs.Perm ds
  | .unresolved .noMatch d cs, .unresolved .noMatch e ds => d = e ∧ cs = ds
  | _, _ => False

/-- Answers that are both refused, or are findings alike. -/
def SameAnswer : Except Misfit Finding → Except Misfit Finding → Prop
  | .ok f, .ok g => Alike f g
  | .error _, .error _ => True
  | _, _ => False

theorem alike_unmatched (ps : List Phrase) : Alike (unmatched ps) (unmatched ps) := ⟨rfl, rfl⟩

theorem alike_mismatched {ms ns : List (String × TypeMismatch)} (h : ms.Perm ns) :
    Alike (mismatched ms) (mismatched ns) := h.map _

theorem alike_ambiguous {xs ys : List (Template × Binding String Parameter)} (h : xs.Perm ys) :
    Alike (.ambiguous (xs.map (·.2.operation)) (xs.map (·.1.pattern)))
      (.ambiguous (ys.map (·.2.operation)) (ys.map (·.1.pattern))) := by
  refine ⟨by simp, by simp, ?_⟩
  simp only [List.zip_map']
  exact h.map _

theorem ofAttempts_alike (statement : String) {xs ys : List (Template × Template.Attempt)}
    (h : xs.Perm ys) (hne : ∀ x ∈ xs, x.1.pattern.points ≠ []) :
    Alike (ofAttempts statement xs) (ofAttempts statement ys) := by
  simp only [ofAttempts]
  generalize hbs : xs.filterMap (_ : _ → Option (Template × Binding String Parameter)) = bs
  generalize hcs : ys.filterMap (_ : _ → Option (Template × Binding String Parameter)) = cs
  have hbound : bs.Perm cs := hbs ▸ hcs ▸ h.filterMap _
  rcases bs with _ | ⟨x, _ | ⟨y, bs⟩⟩
  · rw [hbound.nil_eq.symm]
    dsimp only
    rw [(h.filterMap _).isEmpty_eq, Text.closest_eq_of_perm statement (h.map (·.1.pattern))]
    · split
      · exact alike_unmatched _
      · exact alike_mismatched (h.filterMap _)
    · intro p hp
      obtain ⟨x, hx, rfl⟩ := List.mem_map.1 hp
      exact hne x hx
  · rw [List.singleton_perm.1 hbound |>.symm]
    rfl
  · rcases cs with _ | ⟨z, _ | ⟨w, cs⟩⟩
    · simpa using hbound.length_eq
    · simpa using hbound.length_eq
    · exact alike_ambiguous hbound

end Resolution

/-- However the templates of a registry are ordered, the answer for a statement is the same. -/
theorem Registry.resolve_of_perm {v : Value} {source : String} {r : Registry}
    (hr : Registry.ofValue v source = .ok r) {templates : List Template}
    (h : templates.Perm r.templates) (kind : Kind) (statement : String) :
    Resolution.SameAnswer (r.resolve kind statement)
      (Registry.resolve { r with templates } kind statement) := by
  have hkind : (r.ofKind kind).Perm (Registry.ofKind { r with templates } kind) :=
    (h.filter _).symm
  simp only [Registry.resolve]
  generalize Text.normalize statement = normal
  let hold : Template → Except Misfit (Template × Template.Attempt) := fun t =>
    return (t, ← t.attempt normal)
  change Resolution.SameAnswer ((r.ofKind kind).mapM hold >>= _) (List.mapM hold _ >>= _)
  cases htried : (r.ofKind kind).mapM hold with
  | error e =>
    -- The template that refuses the statement is in both lists.
    obtain ⟨t, ht, hrefuse⟩ := mapM_eq_error.1 ⟨e, htried⟩
    obtain ⟨e', htried'⟩ := mapM_eq_error.2 ⟨t, hkind.mem_iff.1 ht, hrefuse⟩
    rw [htried']
    trivial
  | ok tried =>
    obtain ⟨tried', htried', hperm⟩ := mapM_perm hkind htried
    rw [htried']
    apply Resolution.ofAttempts_alike normal hperm
    intro x hx
    obtain ⟨t, ht, hattempt⟩ := exists_of_mem_mapM htried x hx
    obtain ⟨a, -, hpair⟩ := bind_eq_ok.1 hattempt
    cases hpair
    exact points_pattern_ne_nil hr t (List.mem_filter.1 ht).1

/-- Two templates that match the same statement. -/
def openings : Value :=
  .record [("module", .text "house"), ("templates", .list [
    .record [("kind", .text "WHEN"), ("pattern", .text "the \x7bthing\x7d is opened"),
      ("operation", .text "open_it")],
    .record [("kind", .text "WHEN"), ("pattern", .text "the door is \x7bstate\x7d."),
      ("operation", .text "move_door")]])]

def openingsRegistry : Registry :=
  ⟨"house", [
    ⟨.action, "the \x7bthing\x7d is opened", "open_it", [("thing", .any)], none, none, .eq, false⟩,
    ⟨.action, "the door is \x7bstate\x7d", "move_door", [("state", .any)], none, none, .eq, false⟩],
    none, none, "house.yaml"⟩

theorem Registry.resolve_of_perm_openings :
    Registry.ofValue openings "house.yaml" = .ok openingsRegistry ∧
      Resolution.SameAnswer (openingsRegistry.resolve .action "the door is  opened")
        (Registry.resolve { openingsRegistry with templates := openingsRegistry.templates.reverse }
          .action "the door is  opened") := by
  have hread : Registry.ofValue openings "house.yaml" = .ok openingsRegistry :=
    eq_ok_of_toOption (by decide +kernel)
  exact ⟨hread, Registry.resolve_of_perm hread (List.reverse_perm _) _ _⟩

example : openingsRegistry.resolve .action "the door is  opened" =
    .ok (.ambiguous ["open_it", "move_door"]
      ["the \x7bthing\x7d is opened", "the door is \x7bstate\x7d"]) :=
  eq_ok_of_toOption (by decide +kernel)

end Acceptance

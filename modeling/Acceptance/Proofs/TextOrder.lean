import Mathlib.Data.List.Lex
import Acceptance.Text.Points
/-!
Texts are ordered by their code points, and sorting by a text is done once for all.
-/
namespace Acceptance.Text

theorem pointsLe_iff (ms ns : List Nat) : pointsLe ms ns = true ↔ ms ≤ ns := by
  rw [← not_lt]
  induction ms generalizing ns with
  | nil => simp [pointsLe]
  | cons m ms ih =>
    cases ns with
    | nil => simp [pointsLe]
    | cons n ns =>
      rw [List.cons_lt_cons_iff, pointsLe]
      by_cases h : m = n
      · simp [h, ih]
      · have hn : ¬n = m := fun e => h e.symm
        simp only [h, if_false, decide_eq_true_eq, hn, false_and, or_false]
        omega

end Acceptance.Text

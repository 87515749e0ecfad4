import Acceptance.Proofs.JsonText
import Acceptance.Proofs.StoredPlan
/-!
The text of a plan. Its data is plain enough that the text can be read back, and the plan in it is
found again.
-/
namespace Acceptance

open Json

namespace Plan

/-! Plans as plain data. -/

/-- A property of scalars that the compiler's own entries have. -/
structure Covers (P : Value → Prop) : Prop where
  null : P .null
  text : ∀ s, P (.text s)
  boolean : ∀ b, P (.boolean b)

variable {P : Value → Prop} {k : Nat}

theorem plain_fields {fields : List (String × Value)} (hkeys : (fields.map (·.1)).Nodup)
    (h : fields.Forall fun f => Plain P k f.2) : Plain P (k + 1) (.record fields) :=
  .record hkeys (List.forall_iff_forall_mem.1 h)

theorem plain_list {α : Type} {f : α → Value} {xs : List α} (h : ∀ x ∈ xs, Plain P k (f x)) :
    Plain P (k + 1) (.list (xs.map f)) :=
  .list (List.forall_mem_map.2 h)

theorem plain_parameter (hP : Covers P) {p : StoredParameter} (h : p.Holds (Plain P k)) :
    Plain P (k + 1) p.record :=
  plain_fields (by simp) ⟨h.1, .scalar (hP.text _), h.2⟩

theorem plain_resolutionFields (hP : Covers P) {r : StoredResolution}
    (h : resolutionHolds (Plain P k) r) : ∀ f ∈ resolutionFields r, Plain P (k + 3) f.2 := by
  rw [← List.forall_iff_forall_mem]
  cases r with
  | resolved b =>
    obtain ⟨hoperation, hargs, hexpected⟩ := h
    refine ⟨plain_fields (by simp) ⟨hoperation.le (by omega), ?_, .scalar (hP.boolean _)⟩, ?_,
      .scalar (hP.text _)⟩
    · exact plain_list fun p hp => plain_parameter hP (hargs p hp)
    · cases hb : b.expected with
      | none => exact .scalar hP.null
      | some p => exact (plain_parameter hP (hexpected p hb)).le (by omega)
  | ambiguous candidates patterns =>
    refine plain_fields (by simp) ⟨?_, ?_⟩
    · exact .list fun v hv => (h.1 v hv).le (by omega)
    · exact .list fun v hv => (h.2 v hv).le (by omega)
  | unresolved reason detail candidates =>
    refine plain_fields (by simp) ⟨.scalar (hP.text _), h.1.le (by omega), ?_⟩
    exact .list fun v hv => (h.2 v hv).le (by omega)

theorem plain_stepRecord (hP : Covers P) {s : StoredStep} (h : stepHolds (Plain P k) s) :
    Plain P (k + 4) (stepRecord s) := by
  refine .record (nodup_stepFields s) fun f hf => ?_
  rcases List.mem_append.1 hf with hf | hf
  · refine (List.forall_iff_forall_mem (p := fun f => Plain P (k + 3) f.2)).1 ?_ f hf
    refine ⟨h.statement.le (by omega), h.line.le (by omega), ?_⟩
    exact plain_list fun p hp => (plain_parameter hP (h.parameters p hp)).le (by omega)
  · exact plain_resolutionFields hP h.resolution f hf

theorem plain_scenarioRecord (hP : Covers P) {s : StoredScenario} (h : scenarioHolds (Plain P k) s) :
    Plain P (k + 6) (scenarioRecord s) := by
  refine .record (nodup_scenarioFields s) fun f hf => ?_
  rcases List.mem_append.1 hf with hf | hf
  · refine (List.forall_iff_forall_mem (p := fun f => Plain P (k + 5) f.2)).1 ?_ f hf
    exact ⟨h.id.le (by omega), h.title.le (by omega), h.line.le (by omega)⟩
  · obtain ⟨kind, -, rfl⟩ := List.mem_map.1 hf
    exact plain_list fun t ht => plain_stepRecord hP (h.steps t (List.mem_filter.1 ht).1)

theorem plain_record (hP : Covers P) {d : Stored} (h : d.Holds (Plain P k)) :
    Plain P (k + 8) (record d) := by
  refine plain_fields (by simp) ⟨.scalar (hP.text _), h.source.le (by omega),
    h.description.le (by omega), ?_⟩
  exact plain_list fun s hs => plain_scenarioRecord hP (h.scenarios s hs)

/-! Plans that the compiler makes. -/

theorem covers_isScalar : Covers IsScalar := ⟨.null, .text, .boolean⟩

theorem isScalar_ofPhrase (p : Phrase) : IsScalar (.ofPhrase p) := by
  unfold Value.ofPhrase Value.ofPoints
  split
  · exact .text _
  · exact .torn _

theorem isScalar_ofLiteral (l : Literal) : IsScalar (.ofLiteral l) := by
  cases l <;> constructor

theorem holds_stored {Q : Value → Prop} {ν : Type} [ToValue ν] (hscalar : ∀ v, IsScalar v → Q v)
    (hline : ∀ n : ν, Q (toValue n)) (p : Draft ν) : p.stored.Holds Q := by
  have htext (s : String) : Q (.text s) := hscalar _ (.text s)
  have hphrase (e : Phrase) : Q (.ofPhrase e) := hscalar _ (isScalar_ofPhrase e)
  have hparameter (a : Parameter) : (StoredParameter.ofParameter a).Holds Q :=
    ⟨htext _, hscalar _ (isScalar_ofLiteral _)⟩
  refine ⟨htext _, htext _, List.forall_mem_map.2 fun s _ => ⟨htext _, htext _, ?_, hline _⟩⟩
  refine List.forall_mem_map.2 fun t _ => ⟨htext _, ?_, ?_, hline _⟩
  · exact List.forall_mem_map.2 fun a _ => hparameter a
  · unfold Step.map
    cases t.resolution with
    | resolved b =>
      refine ⟨htext _, List.forall_mem_map.2 fun a _ => hparameter a, ?_⟩
      rintro a ha
      obtain ⟨a, -, rfl⟩ := Option.map_eq_some_iff.1 ha
      exact hparameter a
    | ambiguous candidates patterns =>
      exact ⟨List.forall_mem_map.2 fun s _ => htext s, List.forall_mem_map.2 fun e _ => hphrase e⟩
    | unresolved reason detail candidates =>
      exact ⟨hphrase _, List.forall_mem_map.2 fun e _ => hphrase e⟩

theorem plain_stored (p : Plan) : Plain IsScalar maxDepth (record p.stored) := by
  have hholds := holds_stored (Q := Plain IsScalar 0) (fun v hv => .scalar hv)
    (fun n : Nat => .scalar (.int n)) p
  exact (plain_record covers_isScalar hholds).le (by decide)

end Plan
end Acceptance

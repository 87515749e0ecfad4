import Acceptance.Proofs.ScriptRuns
import Acceptance.Project.Outputs
/-!
Faults that come from files. Such a fault is told by an operation in the run: its reply was an error,
or it was the text of data that is nested too deep. Writing files and pruning them stop for no other
reason.
-/
namespace Acceptance

open Script

/-- The error that an operation on files replies with. -/
def Op.error? : (op : Op) → op.Reply → Option FileError
  | .stat _, .error e => some e
  | .read _, .error e => some e
  | .makeDir _, .error e => some e
  | .write .., .error e => some e
  | .move .., .error e => some e
  | .remove _, .error e => some e
  | _, _ => none

/-- The reply to an operation on files is the reason for a fault. -/
inductive Op.Explains : (op : Op) → op.Reply → Fault → Prop
  | refused {op : Op} {reply : op.Reply} {e : FileError} (h : op.error? reply = some e) :
      Explains op reply (.ofFile e)
  | deep {p : Path} {bytes : ByteArray} {text : String} {inMap : Bool}
      (htext : textOf bytes = .ok text)
      (h : Json.read text = .error (.misfit (.tooDeep inMap))) :
      Explains (.read p) (.ok bytes) (.misfit (.tooDeep inMap))

namespace Script

variable {α β : Type} {s : Script α} {Q Q' : Fault → Prop} {w : World} {f : Fault} {p : Path}

/-- The reason for the fault is among the replies in a run. -/
def Meets (f : Fault) : Script α → World → Prop
  | done _, _ => False
  | stop _, _ => False
  | call op next, w =>
    op.Explains (op.perform w).1 f ∨ (next (op.perform w).1).Meets f (op.perform w).2

/-- A run that stops does so for a fault of the kind, or for one with its reason in the run. -/
def StopsFor (Q : Fault → Prop) (s : Script α) (w : World) : Prop :=
  ∀ f w', s.run w = (.error f, w') → Q f ∨ s.Meets f w

theorem meets_bind_left (k : α → Script β) (h : s.Meets f w) : (s >>= k).Meets f w := by
  induction s generalizing w with
  | done => exact h.elim
  | stop => exact h.elim
  | call op next ih => exact h.imp_right (ih _)

variable {k : α → Script β} {text : String} {files : List (Path × String)}

theorem meets_bind_right {a : α} {w₁ : World} (hs : s.Does w a w₁) (h : (k a).Meets f w₁) :
    (s >>= k).Meets f w := by
  induction s generalizing w with
  | done =>
    obtain ⟨rfl, rfl⟩ := does_done.1 hs
    exact h
  | stop => exact absurd hs not_does_stop
  | call op next ih => exact .inr (ih _ hs)

theorem meets_attempt (h : s.Meets f w) : s.attempt.Meets f w := by
  induction s generalizing w with
  | done => exact h.elim
  | stop => exact h.elim
  | call op next ih => exact h.imp_right (ih _)

namespace StopsFor

theorem mono (h : s.StopsFor Q w) (himp : ∀ f, Q f → Q' f) : s.StopsFor Q' w :=
  fun f w' hrun => (h f w' hrun).imp_left (himp f)

theorem meets {w' : World} (h : s.StopsFor (fun _ => False) w) (hrun : s.run w = (.error f, w')) :
    s.Meets f w := (h f w' hrun).resolve_left id

theorem done (a : α) : (Script.done a).StopsFor Q w := by
  intro f w' h
  cases h

theorem stop (h : Q f) : (Script.stop f : Script α).StopsFor Q w := by
  intro g w' hrun
  cases hrun
  exact .inl h

theorem ofOutcome {o : Outcome α} (h : ∀ f, o = .error f → Q f) : (ofOutcome o).StopsFor Q w := by
  cases o with
  | ok a => exact done a
  | error f => exact stop (h f rfl)

/-- What an operation replies may be the reason for a later stop. -/
theorem ask_bind {op : Op} {k : op.Reply → Script α}
    (h : ∀ reply w₁, op.perform w = (reply, w₁) →
      (k reply).StopsFor (fun f => Q f ∨ op.Explains reply f) w₁) :
    (ask op >>= k).StopsFor Q w := by
  intro f w' hrun
  rcases h _ _ rfl f w' hrun with (hQ | hexplains) | hmeets
  · exact .inl hQ
  · exact .inr (.inl hexplains)
  · exact .inr (.inr hmeets)

theorem bind (hs : s.StopsFor Q w) (hk : ∀ a w₁, s.Does w a w₁ → (k a).StopsFor Q w₁) :
    (s >>= k).StopsFor Q w := by
  intro f w' hrun
  rw [run_bind] at hrun
  cases hs' : s.run w with
  | mk r w₁ =>
    rw [hs'] at hrun
    cases r with
    | error g =>
      cases hrun
      exact (hs f _ hs').imp_right (meets_bind_left k)
    | ok a => exact (hk a w₁ hs' f w' hrun).imp_right (meets_bind_right hs')

/-- A fault that was held back may be met later. -/
theorem attempt_bind {k : Except Fault α → Script β}
    (hk : ∀ r w₁, s.run w = (r, w₁) → (k r).StopsFor (fun f => Q f ∨ s.Meets f w) w₁) :
    (s.attempt >>= k).StopsFor Q w := by
  intro f w' hrun
  have hattempt : s.attempt.Does w (s.run w).1 (s.run w).2 := does_attempt.2 rfl
  rw [run_bind, run_attempt] at hrun
  rcases hk _ _ rfl f w' hrun with (hQ | hmeets) | hmeets
  · exact .inl hQ
  · exact .inr (meets_bind_left k (meets_attempt hmeets))
  · exact .inr (meets_bind_right hattempt hmeets)

/-- Steps that keep an invariant stop for nothing else than each of them does. -/
theorem mapM {g : α → Script β} {as : List α} {I : World → Prop} (hw : I w)
    (hg : ∀ a ∈ as, ∀ v, I v → (g a).StopsFor Q v ∧ I ((g a).run v).2) :
    (as.mapM g).StopsFor Q w := by
  induction as generalizing w with
  | nil => exact done []
  | cons a as ih =>
    obtain ⟨ha, has⟩ := List.forall_mem_cons.1 hg
    rw [List.mapM_cons]
    refine (ha w hw).1.bind fun b w₁ hb => ?_
    have hw₁ : I w₁ := by
      have hkept := (ha w hw).2
      rwa [show (g a).run w = (.ok b, w₁) from hb] at hkept
    exact (ih hw₁ has).bind fun bs w₂ _ => done _

theorem forM {g : α → Script PUnit} {as : List α} (hg : ∀ a ∈ as, ∀ v, (g a).StopsFor Q v) :
    (as.forM g).StopsFor Q w := by
  induction as generalizing w with
  | nil => exact done (PUnit.unit : PUnit)
  | cons a as ih =>
    obtain ⟨ha, has⟩ := List.forall_mem_cons.1 hg
    exact (ha w).bind fun _ w₁ _ => ih has

end StopsFor

/-! Work on files. -/

theorem stopsFor_ofReply {r : Except FileError α} (h : ∀ e, r = .error e → Q (.ofFile e)) :
    (ofReply r).StopsFor Q w := by
  cases r with
  | ok a => exact .done a
  | error e => exact .stop (h e rfl)

theorem stopsFor_stat : (stat p).StopsFor Q w := by
  refine .ask_bind fun reply w₁ _ => stopsFor_ofReply ?_
  rintro e rfl
  exact .inr (.refused rfl)

theorem stopsFor_isDir : (isDir p).StopsFor Q w := stopsFor_stat.bind fun _ _ _ => .done _

theorem stopsFor_writeText : (writeText p text).StopsFor Q w := by
  refine .ask_bind fun reply w₁ _ => stopsFor_ofReply ?_
  rintro e rfl
  exact .inr (.refused rfl)

theorem stopsFor_remove : (remove p).StopsFor Q w := by
  refine .ask_bind fun reply w₁ _ => stopsFor_ofReply ?_
  rintro e rfl
  exact .inr (.refused rfl)

theorem stopsFor_swapIn {s : Staged} : (swapIn s).StopsFor Q w := by
  refine .ask_bind fun reply w₁ _ => stopsFor_ofReply ?_
  rintro e rfl
  exact .inr (.refused rfl)

theorem stopsFor_removeIfThere : (removeIfThere p).StopsFor Q w := by
  refine .ask_bind fun reply w₁ _ => ?_
  split
  · exact .done _
  · refine stopsFor_ofReply ?_
    rintro e rfl
    exact .inr (.refused rfl)

theorem stopsFor_acceptDir {r : Except FileError Unit} (h : ∀ e, r = .error e → Q (.ofFile e)) :
    (acceptDir p r).StopsFor Q w := by
  unfold acceptDir
  split
  · next e =>
    refine stopsFor_isDir.bind fun b w₁ _ => ?_
    split
    · exact .done _
    · exact .stop (h _ rfl)
  · exact stopsFor_ofReply h

theorem stopsFor_makeDir : (do acceptDir p (← ask (.makeDir p)) : Script Unit).StopsFor Q w := by
  refine .ask_bind fun reply w₁ _ => stopsFor_acceptDir ?_
  rintro e rfl
  exact .inr (.refused rfl)

theorem stopsFor_makeDirsUp (slashes : Nat) (parts : List Phrase) :
    (makeDirsUp slashes parts).StopsFor Q w := by
  induction parts generalizing w with
  | nil => exact stopsFor_makeDir
  | cons part above ih =>
    rw [makeDirsUp]
    refine .ask_bind fun reply w₁ _ => ?_
    split
    · exact (ih.bind fun _ w₂ _ => stopsFor_makeDir).mono fun f hf => .inl hf
    · refine stopsFor_acceptDir ?_
      rintro e rfl
      exact .inr (.refused rfl)

theorem stopsFor_stage (hp : p.parts ≠ []) : (stage p text).StopsFor Q w := by
  refine (stopsFor_makeDirsUp _ _).bind fun _ w₁ _ => ?_
  rw [if_neg hp]
  exact stopsFor_writeText.bind fun _ w₂ _ => .done _

theorem stopsFor_stageAll (h : ∀ f ∈ files, f.1.parts ≠ []) {staged : List Staged} :
    (stageAll staged files).StopsFor Q w := by
  induction files generalizing staged w Q with
  | nil => exact .done _
  | cons file files ih =>
    obtain ⟨hfile, hfiles⟩ := List.forall_mem_cons.1 h
    obtain ⟨target, text⟩ := file
    rw [stageAll]
    refine .attempt_bind fun r w₁ hrun => ?_
    cases r with
    | ok s => exact ih hfiles
    | error f =>
      -- whatever stopped the draft has its reason there
      have hmeets := (stopsFor_stage hfile).meets hrun
      cases f with
      | os e =>
        refine StopsFor.bind (.forM fun s _ v => stopsFor_removeIfThere) fun _ w₂ _ => ?_
        exact .stop (.inr hmeets)
      | _ => exact .stop (.inr hmeets)

theorem stopsFor_writeGroup (h : ∀ f ∈ files, f.1.parts ≠ []) {stale : List Path} :
    (writeGroup files stale).StopsFor Q w := by
  refine (stopsFor_stageAll fun f hf => h f ((List.mergeSort_perm ..).mem_iff.1 hf)).bind
    fun staged w₁ _ => ?_
  refine StopsFor.bind (.forM fun s _ v => stopsFor_swapIn) fun _ w₂ _ => ?_
  exact .forM fun p _ v => stopsFor_removeIfThere

end Script

/-! Pruning. -/

namespace Project

variable {Q : Fault → Prop} {w : World} {p : Path}

theorem undecodable_of_textOf {bytes : ByteArray} {f : Fault} (h : textOf bytes = .error f) :
    ∃ e, f = .undecodable e := by
  unfold textOf at h
  cases hdecode : Text.decode bytes with
  | ok text =>
    rw [hdecode] at h
    cases h
  | error e =>
    rw [hdecode] at h
    cases h
    exact ⟨e, rfl⟩

theorem stopsFor_readText : (readText p).StopsFor (fun f => ∃ e, f = .undecodable e) w := by
  refine .ask_bind fun reply w₁ _ => ?_
  refine StopsFor.bind (stopsFor_ofReply ?_) fun bytes w₂ _ => ?_
  · rintro e rfl
    exact .inr (.refused rfl)
  · exact .ofOutcome fun f hf => .inl (undecodable_of_textOf hf)

theorem stopsFor_isGenerated : (isGenerated p).StopsFor Q w := by
  refine .attempt_bind fun r w₁ hrun => ?_
  split
  · exact .done _
  · rcases stopsFor_readText _ _ hrun with ⟨e, he⟩ | hmeets
    · cases he
    · exact .stop (.inr hmeets)
  · exact .done _

theorem stopsFor_readJson :
    (readJson p).StopsFor (fun f => ∀ inMap, f ≠ .misfit (.tooDeep inMap)) w := by
  simp only [readJson, readText, bind_assoc]
  refine .ask_bind fun reply w₁ _ => ?_
  cases reply with
  | error e => exact .stop (.inr (.refused rfl))
  | ok bytes =>
    change (ofOutcome (textOf bytes) >>= fun text =>
      ofOutcome ((Json.read text).mapError .ofJson)).StopsFor _ w₁
    refine StopsFor.bind (.ofOutcome fun f hf => .inl ?_) fun text w₂ htext => .ofOutcome fun f hf => ?_
    · obtain ⟨e, rfl⟩ := undecodable_of_textOf hf
      simp
    · cases hread : Json.read text with
      | ok v =>
        rw [hread] at hf
        cases hf
      | error e =>
        rw [hread] at hf
        cases hf
        by_cases hdeep : ∃ inMap, e = .misfit (.tooDeep inMap)
        · obtain ⟨inMap, rfl⟩ := hdeep
          exact .inr (.deep (does_ofOutcome.1 htext).1 hread)
        · left
          rintro inMap hfault
          cases e with
          | flaw => cases hfault
          | misfit m =>
            cases hfault
            exact hdeep ⟨inMap, rfl⟩

theorem stopsFor_isPlanFile : (isPlanFile p).StopsFor Q w := by
  refine .attempt_bind fun r w₁ hrun => ?_
  split
  · exact .done _
  · rcases stopsFor_readJson _ _ hrun with hother | hmeets
    · exact absurd rfl (hother _)
    · exact .stop (.inr hmeets)
  · exact .done _

variable {keep live : List String}

theorem stopsFor_pruneTest : (pruneTest keep p).StopsFor Q w := by
  unfold pruneTest
  split
  · exact .done _
  · refine stopsFor_isGenerated.bind fun b w₁ _ => ?_
    split
    · refine stopsFor_remove.bind fun _ w₂ _ => ?_
      exact stopsFor_removeIfThere.bind fun _ w₃ _ => .done _
    · exact .done _

theorem stopsFor_childrenNamed {start ending : String} :
    (childrenNamed start ending p).StopsFor Q w := .ask_bind fun _ _ _ => .done _

theorem stopsFor_pruneTests : (pruneTests p keep).StopsFor Q w := by
  refine stopsFor_isDir.bind fun b w₁ _ => ?_
  split
  · refine stopsFor_childrenNamed.bind fun ps w₂ _ => ?_
    have hall : (ps.mapM (pruneTest keep)).StopsFor Q w₂ :=
      .mapM (I := fun _ => True) trivial fun p _ v _ => ⟨stopsFor_pruneTest, trivial⟩
    exact hall.bind fun _ w₃ _ => .done _
  · exact .done _

theorem stopsFor_prunePlan : (prunePlan live p).StopsFor Q w := by
  unfold prunePlan
  split
  · exact .done _
  · refine stopsFor_isPlanFile.bind fun b w₁ _ => ?_
    split
    · exact stopsFor_remove
    · exact .done _

theorem stopsFor_prunePlans : (prunePlans p live).StopsFor Q w := by
  refine stopsFor_isDir.bind fun b w₁ _ => ?_
  split
  · exact stopsFor_childrenNamed.bind fun ps w₂ _ => .forM fun p _ v => stopsFor_prunePlan
  · exact .done _

end Project
end Acceptance

import Acceptance.Proofs.KeptFiles
/-!
Scripts that run side by side. They share a world and take turns, one operation at a time, in any
order. Each of them then runs amid the others: between its own operations the tree changes, but only
as the others may change it.
-/
namespace Acceptance.Script

variable {α β : Type} {w w' : World}

/-- The script at a position does its next operation, if it has one. -/
def turn (c : List (Script α) × World) (i : Nat) : List (Script α) × World :=
  match c.1[i]? with
  | some (call op next) => (c.1.set i (next (op.perform c.2).1), (op.perform c.2).2)
  | _ => c

/-- Scripts take turns. The schedule tells whose turn it is. -/
def interleave (schedule : List Nat) (scripts : List (Script α)) (w : World) :
    List (Script α) × World :=
  schedule.foldl turn (scripts, w)

/-- All scripts come to an end, each with its result. -/
def Interleaves (schedule : List Nat) (scripts : List (Script α)) (w : World) (results : List α)
    (w' : World) : Prop :=
  interleave schedule scripts w = (results.map done, w')

section Turns

variable {scripts : List (Script α)} {results : List α} {i : Nat}

theorem interleave_cons (schedule : List Nat) :
    interleave (i :: schedule) scripts w =
      interleave schedule (turn (scripts, w) i).1 (turn (scripts, w) i).2 := rfl

theorem interleave_append (first second : List Nat) :
    interleave (first ++ second) scripts w =
      interleave second (interleave first scripts w).1 (interleave first scripts w).2 :=
  List.foldl_append ..

theorem turn_of_call {op : Op} {next : op.Reply → Script α} (h : scripts[i]? = some (call op next)) :
    turn (scripts, w) i = (scripts.set i (next (op.perform w).1), (op.perform w).2) := by
  rw [turn, h]

/-- A turn does nothing, or it is an operation of the script whose turn it is. -/
theorem turn_cases (scripts : List (Script α)) (w : World) (i : Nat) :
    turn (scripts, w) i = (scripts, w) ∨ ∃ op next, scripts[i]? = some (call op next) ∧
      turn (scripts, w) i = (scripts.set i (next (op.perform w).1), (op.perform w).2) := by
  cases hs : scripts[i]? with
  | none => exact .inl (by rw [turn, hs])
  | some s =>
    cases s with
    | done a => exact .inl (by rw [turn, hs])
    | stop f => exact .inl (by rw [turn, hs])
    | call op next => exact .inr ⟨op, next, rfl, turn_of_call hs⟩

/-- What each operation does to the tree, all of them do. -/
theorem interleave_tree {R : Op → Prop} {Q : Tree → Tree → Prop} (hrefl : ∀ t, Q t t)
    (htrans : ∀ t u v, Q t u → Q u v → Q t v)
    (hstep : ∀ (op : Op) (w : World), R op → Q w.tree (op.perform w).2.tree)
    (hasks : ∀ s ∈ scripts, s.Asks R fun _ => True) (schedule : List Nat) :
    Q w.tree (interleave schedule scripts w).2.tree := by
  -- scripts get shorter from turn to turn, so what they ask for is carried along
  induction schedule generalizing scripts w with
  | nil => exact hrefl _
  | cons i schedule ih =>
    rw [interleave_cons]
    rcases turn_cases scripts w i with hturn | ⟨op, next, hs, hturn⟩
    · rw [hturn]
      exact ih hasks
    · rw [hturn]
      obtain ⟨hop, hnext⟩ := hasks _ (List.mem_of_getElem? hs)
      refine htrans _ _ _ (hstep op w hop) (ih fun s hmem => ?_)
      rcases List.mem_or_eq_of_mem_set hmem with hold | rfl
      · exact hasks s hold
      · exact hnext _

theorem Interleaves.length_eq {schedule : List Nat} (h : Interleaves schedule scripts w results w') :
    results.length = scripts.length := by
  induction schedule generalizing scripts w with
  | nil =>
    obtain ⟨rfl, -⟩ := Prod.mk.inj h
    rw [List.length_map]
  | cons i schedule ih =>
    rw [Interleaves, interleave_cons] at h
    rcases turn_cases scripts w i with hturn | ⟨op, next, -, hturn⟩
    · rw [hturn] at h
      exact ih h
    · rw [hturn] at h
      rw [ih h, List.length_set]

end Turns

/-! Running amid others. -/

/-- A run of a script amid work that keeps the files at some places: before each of its operations
and after the last one the tree may have changed. -/
def Amid (P : Location → Prop) : Script α → World → α → World → Prop
  | done a, w, b, w' => a = b ∧ w.tree.KeepsAt P w'.tree
  | stop _, _, _, _ => False
  | call op next, w, b, w' => ∃ w₁, w.tree.KeepsAt P w₁.tree ∧
      (next (op.perform w₁).1).Amid P (op.perform w₁).2 b w'

namespace Amid

variable {P : Location → Prop} {s : Script α} {a : α} {b : β}

theorem before {v : World} (h : s.Amid P w a w') (hv : v.tree.KeepsAt P w.tree) :
    s.Amid P v a w' := by
  cases s with
  | done c => exact ⟨h.1, hv.trans h.2⟩
  | stop f => exact h
  | call op next =>
    obtain ⟨w₁, hw₁, hnext⟩ := h
    exact ⟨w₁, hv.trans hw₁, hnext⟩

theorem of_bind {k : α → Script β} (h : (s >>= k).Amid P w b w') :
    ∃ a w₁, s.Amid P w a w₁ ∧ (k a).Amid P w₁ b w' := by
  induction s generalizing w with
  | done a => exact ⟨a, w, ⟨rfl, .refl _⟩, h⟩
  | stop f => exact h.elim
  | call op next ih =>
    obtain ⟨w₁, hw₁, hnext⟩ := h
    obtain ⟨a, w₂, hs, hk⟩ := ih _ hnext
    exact ⟨a, w₂, ⟨w₁, hw₁, hs⟩, hk⟩

theorem of_ask {op : Op} {k : op.Reply → Script β} (h : (ask op >>= k).Amid P w b w') :
    ∃ w₁, w.tree.KeepsAt P w₁.tree ∧ (k (op.perform w₁).1).Amid P (op.perform w₁).2 b w' := h

theorem of_seq {s : Script Unit} {k : Unit → Script β} (h : (s >>= k).Amid P w b w') :
    ∃ w₁, s.Amid P w () w₁ ∧ (k ()).Amid P w₁ b w' := by
  obtain ⟨_, w₁, hs, hk⟩ := of_bind h
  exact ⟨w₁, hs, hk⟩

theorem of_attempt {r : Except Fault α} (h : s.attempt.Amid P w r w') :
    (∃ a, r = .ok a ∧ s.Amid P w a w') ∨ ∃ f, r = .error f := by
  induction s generalizing w with
  | done a => exact .inl ⟨a, h.1.symm, rfl, h.2⟩
  | stop f => exact .inr ⟨f, h.1.symm⟩
  | call op next ih =>
    obtain ⟨w₁, hw₁, hnext⟩ := h
    rcases ih _ hnext with ⟨a, hr, hs⟩ | hf
    · exact .inl ⟨a, hr, w₁, hw₁, hs⟩
    · exact .inr hf

/-- A script that leaves the places alone keeps their files, also amid others. -/
theorem keepsAt {G : α → Prop} (h : s.Amid P w a w') (hs : s.Asks (Op.SparesAt P) G) :
    w.tree.KeepsAt P w'.tree := by
  induction s generalizing w with
  | done c => exact h.2
  | stop f => exact h.elim
  | call op next ih =>
    obtain ⟨w₁, hw₁, hnext⟩ := h
    exact hw₁.trans ((hs.1.perform w₁).trans (ih _ hnext (hs.2 _)))

end Amid

/-- The script has come to its end. -/
def Ended : Script α → Prop
  | call _ _ => False
  | _ => True

/-- The script is a single operation. -/
def Single : Script α → Prop
  | call _ next => ∀ reply, (next reply).Ended
  | _ => False

/-- A single operation is done at one time. -/
theorem Amid.exists_does {P : Location → Prop} {s : Script α} {a : α} (h : s.Amid P w a w')
    (hs : s.Single) : ∃ w₁ w₂, w.tree.KeepsAt P w₁.tree ∧ s.Does w₁ a w₂ ∧
      w₂.tree.KeepsAt P w'.tree := by
  cases s with
  | done c => exact hs.elim
  | stop f => exact hs.elim
  | call op next =>
    obtain ⟨w₁, hw₁, hnext⟩ := h
    refine ⟨w₁, (op.perform w₁).2, hw₁, ?_⟩
    have hend := hs (op.perform w₁).1
    rw [Does, run_call]
    cases hreply : next (op.perform w₁).1 with
    | done c =>
      rw [hreply] at hnext
      obtain ⟨rfl, hkeeps⟩ := hnext
      exact ⟨rfl, hkeeps⟩
    | stop f =>
      rw [hreply] at hnext
      exact hnext.elim
    | call op' next' =>
      rw [hreply] at hend
      exact hend.elim

/-- A script runs amid the others, if these leave its places alone. -/
theorem Interleaves.exists_amid {P : Location → Prop} {schedule : List Nat}
    {scripts : List (Script α)} {results : List α} (h : Interleaves schedule scripts w results w')
    {i : Nat} {s : Script α} (hs : scripts[i]? = some s)
    (hothers : ∀ j s, j ≠ i → scripts[j]? = some s → s.SparesAt P) :
    ∃ a, results[i]? = some a ∧ s.Amid P w a w' := by
  -- turns of others come before the next operation of the script, or after its last one
  induction schedule generalizing scripts s w with
  | nil =>
    obtain ⟨hscripts, rfl⟩ := Prod.mk.inj h
    rw [hscripts, List.getElem?_map] at hs
    obtain ⟨a, ha, rfl⟩ := Option.map_eq_some_iff.1 hs
    exact ⟨a, ha, rfl, .refl _⟩
  | cons k schedule ih =>
    rw [Interleaves, interleave_cons] at h
    rcases turn_cases scripts w k with hturn | ⟨op, next, hk, hturn⟩
    · rw [hturn] at h
      exact ih h hs hothers
    · rw [hturn] at h
      have hlength : k < scripts.length := (List.getElem?_eq_some_iff.1 hk).1
      by_cases hki : k = i
      · -- its own turn
        subst hki
        obtain rfl := Option.some.inj (hs.symm.trans hk)
        have hnext : (scripts.set k (next (op.perform w).1))[k]? = some (next (op.perform w).1) := by
          rw [List.getElem?_set_self hlength]
        obtain ⟨a, ha, hamid⟩ := ih h hnext fun j s hj hjs => by
          rw [List.getElem?_set_ne (Ne.symm hj)] at hjs
          exact hothers j s hj hjs
        exact ⟨a, ha, w, .refl _, hamid⟩
      · -- the turn of another
        have hspares := hothers k _ hki hk
        have hsame : (scripts.set k (next (op.perform w).1))[i]? = some s := by
          rw [List.getElem?_set_ne hki, hs]
        obtain ⟨a, ha, hamid⟩ := ih h hsame fun j s hj hjs => by
          by_cases hjk : j = k
          · subst hjk
            rw [List.getElem?_set_self hlength] at hjs
            obtain rfl := Option.some.inj hjs
            exact hspares.2 _
          · rw [List.getElem?_set_ne (Ne.symm hjk)] at hjs
            exact hothers j s hj hjs
        exact ⟨a, ha, hamid.before (hspares.1.perform w)⟩

/-! One after the other. -/

/-- A script can take all its turns in a row. -/
theorem Does.exists_turns {s : Script α} {a : α} (h : s.Does w a w') (before after : List (Script α)) :
    ∃ n, interleave (List.replicate n before.length) (before ++ s :: after) w =
      (before ++ done a :: after, w') := by
  induction s generalizing w with
  | done c =>
    obtain ⟨rfl, rfl⟩ := does_done.1 h
    exact ⟨0, rfl⟩
  | stop f => exact absurd h not_does_stop
  | call op next ih =>
    obtain ⟨n, hn⟩ := ih _ h
    have hat : (before ++ call op next :: after)[before.length]? = some (call op next) := by simp
    refine ⟨n + 1, ?_⟩
    rw [List.replicate_succ, interleave_cons, turn_of_call hat,
      List.set_append_right _ _ (Nat.le_refl _), Nat.sub_self]
    exact hn

/-- Scripts that run one after the other take turns in a special way. -/
theorem Does.exists_interleaves {f : α → Script β} {as : List α} {bs : List β}
    (h : (as.mapM f).Does w bs w') : ∃ schedule, Interleaves schedule (as.map f) w bs w' := by
  -- the induction goes over the scripts that are left, behind those that have come to their ends
  suffices hlater : ∀ before : List (Script β), ∃ schedule,
      interleave schedule (before ++ as.map f) w = (before ++ bs.map done, w') from hlater []
  induction as generalizing w bs with
  | nil =>
    obtain ⟨rfl, rfl⟩ := does_mapM_nil.1 h
    exact fun before => ⟨[], rfl⟩
  | cons a as ih =>
    obtain ⟨b, rest, w₁, hb, hrest, rfl⟩ := does_mapM_cons.1 h
    intro before
    obtain ⟨n, hn⟩ := hb.exists_turns before (as.map f)
    obtain ⟨schedule, hschedule⟩ := ih hrest (before ++ [done b])
    refine ⟨List.replicate n before.length ++ schedule, ?_⟩
    rw [List.map_cons, interleave_append, hn]
    simpa using hschedule

/-- The result of a script that has come to its end. -/
def result? : Script α → Option α
  | done a => some a
  | _ => none

theorem eq_map_done {scripts : List (Script α)} {results : List α}
    (h : scripts.mapM result? = some results) : scripts = results.map done := by
  induction scripts generalizing results with
  | nil =>
    cases h
    rfl
  | cons s scripts ih =>
    rw [List.mapM_cons] at h
    obtain ⟨a, ha, h⟩ := Option.bind_eq_some_iff.1 h
    obtain ⟨rest, hrest, h⟩ := Option.bind_eq_some_iff.1 h
    cases h
    cases s with
    | done b =>
      cases ha
      rw [ih hrest, List.map_cons]
    | _ => cases ha

/-- Turns after which all scripts have come to their ends. -/
theorem interleaves_of_mapM {scripts : List (Script α)} {schedule : List Nat} {results : List α}
    (h : (interleave schedule scripts w).1.mapM result? = some results) :
    Interleaves schedule scripts w results (interleave schedule scripts w).2 :=
  Prod.ext (eq_map_done h) rfl

end Acceptance.Script

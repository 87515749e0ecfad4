import Acceptance.Proofs.FileTree
import Acceptance.Proofs.Outcomes
import Acceptance.Script.Files
/-!
Runs of scripts that come to an end. Each operation on files is told by what it needs of the tree and
by the tree that it leaves.
-/
namespace Acceptance

/-- An operation on a path leaves a new tree, if nothing is wrong with the paths. -/
theorem World.update_eq_ok {w w' : World} {p : Path} {target : Option Path}
    {r : Except OsCause Tree} :
    w.update p target r = (.ok (), w') ↔ p.flaw? = none ∧ target.bind (·.flaw?) = none ∧
      ∃ t, r = .ok t ∧ w' = { w with tree := t } := by
  unfold update
  cases p.flaw? with
  | some flaw => simp
  | none =>
    cases target.bind (·.flaw?) with
    | some flaw => simp
    | none => cases r <;> simp [eq_comm]

theorem World.look_snd {α : Type} (w : World) (p : Path) (r : Except OsCause α) :
    (w.look p r).2 = w := by
  unfold look
  split <;> rfl

namespace Script

variable {α β : Type} {w w' : World} {p : Path}
variable {s : Script α} {a b : α} {k : α → Script β} {f : α → Script PUnit} {as : List α}
  {bs : List β}

/-- The script ends with a result and leaves another world. -/
def Does (s : Script α) (w : World) (a : α) (w' : World) : Prop := s.run w = (.ok a, w')

theorem Does.unique {w₁ w₂ : World} (h₁ : s.Does w a w₁) (h₂ : s.Does w b w₂) :
    a = b ∧ w₁ = w₂ := by
  have heq := h₁.symm.trans h₂
  rw [Prod.mk.injEq, Except.ok.injEq] at heq
  exact heq

/-- A run that ends with a result, whatever becomes of the world. -/
theorem exists_does_of_isOk (h : (s.run w).1.isOk = true) : ∃ a, s.Does w a (s.run w).2 := by
  obtain ⟨a, ha⟩ := exists_ok_of_isOk h
  exact ⟨a, Prod.ext ha rfl⟩

theorem does_done : (done a).Does w b w' ↔ a = b ∧ w = w' := by
  rw [Does, run_done, Prod.mk.injEq, Except.ok.injEq]

theorem does_pure : (pure a : Script α).Does w b w' ↔ a = b ∧ w = w' := does_done

theorem not_does_stop {f : Fault} : ¬(stop f).Does w a w' := by
  intro h
  rw [Does, run_stop] at h
  cases h

theorem does_bind {b : β} : (s >>= k).Does w b w' ↔ ∃ a w₁, s.Does w a w₁ ∧ (k a).Does w₁ b w' := by
  simp only [Does, run_bind]
  obtain ⟨r, w₁⟩ := s.run w
  cases r with
  | ok a =>
    constructor
    · exact fun h => ⟨a, w₁, rfl, h⟩
    · rintro ⟨a', w₂, heq, h⟩
      cases heq
      exact h
  | error f =>
    constructor
    · intro h
      cases h
    · rintro ⟨a', w₂, heq, -⟩
      cases heq

theorem run_bind_of_does (h : s.Does w a w') : (s >>= k).run w = (k a).run w' := by
  rw [run_bind, show s.run w = (.ok a, w') from h]

theorem does_seq {s : Script Unit} {k : Unit → Script β} {b : β} :
    (s >>= k).Does w b w' ↔ ∃ w₁, s.Does w () w₁ ∧ (k ()).Does w₁ b w' :=
  does_bind.trans ⟨fun ⟨_, h⟩ => h, fun h => ⟨(), h⟩⟩

theorem does_ask {op : Op} {r : op.Reply} : (ask op).Does w r w' ↔ op.perform w = (r, w') := by
  rw [Does, ask, run_call, run_done, Prod.mk.injEq, Except.ok.injEq, Prod.ext_iff]

theorem does_ofOutcome {o : Outcome α} : (ofOutcome o).Does w a w' ↔ o = .ok a ∧ w = w' := by
  cases o with
  | ok b => rw [ofOutcome, does_done, Except.ok.injEq]
  | error f => simp [ofOutcome, not_does_stop]

theorem does_ofFit {r : Except Misfit α} : (ofFit r).Does w a w' ↔ r = .ok a ∧ w = w' := by
  rw [ofFit, does_ofOutcome]
  cases r <;> simp [Value.orFault, Except.mapError]

theorem does_ofFit_bind {r : Except Misfit α} {b : β} :
    (ofFit r >>= k).Does w b w' ↔ ∃ a, r = .ok a ∧ (k a).Does w b w' := by
  rw [does_bind]
  constructor
  · rintro ⟨a, w₁, hfit, h⟩
    obtain ⟨ha, rfl⟩ := does_ofFit.1 hfit
    exact ⟨a, ha, h⟩
  · rintro ⟨a, ha, h⟩
    exact ⟨a, w, does_ofFit.2 ⟨ha, rfl⟩, h⟩

theorem does_attempt {r : Except Fault α} : s.attempt.Does w r w' ↔ s.run w = (r, w') := by
  rw [Does, run_attempt, Prod.mk.injEq, Except.ok.injEq, Prod.ext_iff]

theorem does_ofReply {r : Except FileError α} : (ofReply r).Does w a w' ↔ r = .ok a ∧ w = w' := by
  cases r with
  | ok b => rw [ofReply, does_done, Except.ok.injEq]
  | error e => simp [ofReply, not_does_stop]

theorem does_forM_nil : (([] : List α).forM f).Does w ⟨⟩ w' ↔ w = w' := by
  rw [List.forM_eq_forM, List.forM_nil, does_pure, and_iff_right rfl]

theorem does_forM_cons :
    ((a :: as).forM f).Does w ⟨⟩ w' ↔ ∃ w₁, (f a).Does w ⟨⟩ w₁ ∧ (as.forM f).Does w₁ ⟨⟩ w' := by
  rw [List.forM_eq_forM, List.forM_cons, does_seq]

theorem does_mapM_nil {f : α → Script β} :
    (([] : List α).mapM f).Does w bs w' ↔ bs = [] ∧ w = w' := by
  rw [List.mapM_nil, does_pure, eq_comm]

theorem does_mapM_cons {f : α → Script β} :
    ((a :: as).mapM f).Does w bs w' ↔
      ∃ b rest w₁, (f a).Does w b w₁ ∧ (as.mapM f).Does w₁ rest w' ∧ bs = b :: rest := by
  simp only [List.mapM_cons, does_bind, does_pure]
  constructor
  · rintro ⟨b, w₁, hb, rest, w₂, hrest, rfl, rfl⟩
    exact ⟨b, rest, w₁, hb, hrest, rfl⟩
  · rintro ⟨b, rest, w₁, hb, hrest, rfl⟩
    exact ⟨b, w₁, hb, rest, w', hrest, rfl, rfl⟩

theorem does_forM :
    (as.forM f).Does w ⟨⟩ w' ↔ ∃ us, (as.mapM f).Does w us w' := by
  induction as generalizing w with
  | nil =>
    rw [does_forM_nil]
    constructor
    · rintro rfl
      exact ⟨[], does_mapM_nil.2 ⟨rfl, rfl⟩⟩
    · rintro ⟨us, h⟩
      exact (does_mapM_nil.1 h).2
  | cons a as ih =>
    simp only [does_forM_cons, does_mapM_cons, ih]
    constructor
    · rintro ⟨w₁, ha, us, hus⟩
      exact ⟨_, _, us, w₁, ha, hus, rfl⟩
    · rintro ⟨_, u, us, w₁, ha, hus, rfl⟩
      exact ⟨w₁, ha, us, hus⟩

theorem does_of_mem_mapM {f : α → Script β} (h : (as.mapM f).Does w bs w') :
    ∀ a ∈ as, ∃ w₁ b w₂, (f a).Does w₁ b w₂ := by
  induction as generalizing w bs with
  | nil => simp
  | cons a as ih =>
    obtain ⟨b, rest, w₁, hb, hrest, -⟩ := does_mapM_cons.1 h
    exact List.forall_mem_cons.2 ⟨⟨w, b, w₁, hb⟩, ih hrest⟩

/-! Single operations. -/

theorem does_listBelow {found : List (Location × EntryKind)} :
    (ask (.listBelow p)).Does w found w' ↔ w.tree.listBelow p = found ∧ w = w' := by
  rw [← Prod.mk.injEq]
  exact does_ask

theorem does_reply {α : Type} {reply : Except FileError α} {a : α} :
    (ofReply reply).Does w a w' ↔ (reply, w) = (.ok a, w') := by
  rw [does_ofReply, Prod.mk.injEq]

theorem does_writeText {text : String} : (writeText p text).Does w () w' ↔
    p.flaw? = none ∧ ∃ t, w.tree.write p (Text.encode text) = .ok t ∧ w' = { w with tree := t } :=
  does_reply.trans (World.update_eq_ok.trans (by simp))

theorem does_remove : (remove p).Does w () w' ↔
    p.flaw? = none ∧ ∃ t, w.tree.remove p = .ok t ∧ w' = { w with tree := t } :=
  does_reply.trans (World.update_eq_ok.trans (by simp))

theorem does_swapIn {s : Staged} : (swapIn s).Does w () w' ↔
    s.draft.flaw? = none ∧ s.target.flaw? = none ∧
      ∃ t, w.tree.move s.draft s.target = .ok t ∧ w' = { w with tree := t } :=
  does_reply.trans World.update_eq_ok

theorem does_stat {k : Option EntryKind} : (stat p).Does w k w' ↔
    w = w' ∧ if p.flaw?.isSome then k = none else w.tree.stat p = .ok k := by
  have hstat : (stat p).Does w k w' ↔ w.stat p = (.ok k, w') := does_reply
  rw [hstat, World.stat, World.look]
  cases p.flaw? with
  | some flaw => simp [and_comm, eq_comm]
  | none => cases w.tree.stat p <;> simp [Except.mapError, and_comm]

theorem does_isDir {b : Bool} : (isDir p).Does w b w' ↔
    w = w' ∧ if p.flaw?.isSome then b = false
      else ∃ k, w.tree.stat p = .ok k ∧ b = decide (k = some .dir) := by
  simp only [isDir, does_bind, does_stat, does_pure]
  cases p.flaw? with
  | some flaw => simp [and_comm, eq_comm]
  | none => simp [eq_comm, and_comm, and_assoc]

theorem does_isDir_true : (isDir p).Does w true w' ↔
    w = w' ∧ p.flaw? = none ∧ w.tree.stat p = .ok (some .dir) := by
  rw [does_isDir]
  cases p.flaw? with
  | some flaw => simp
  | none => simp [and_comm]

/-- A directory is asked for in vain rather than without an answer where there are fewer. -/
theorem does_isDir_of_dirs {b : Bool} {v : World} (h : (isDir p).Does w b w')
    (hdirs : ∀ m ∈ p.trail, v.tree.get? m = some .dir → w.tree.get? m = some .dir) :
    ∃ b', (isDir p).Does v b' v ∧ (b' = true → b = true) := by
  obtain ⟨-, hb⟩ := does_isDir.1 h
  by_cases hflaw : p.flaw?.isSome
  · exact ⟨false, does_isDir.2 ⟨rfl, by rw [if_pos hflaw]⟩, by simp⟩
  · rw [if_neg hflaw] at hb
    obtain ⟨k, hk, rfl⟩ := hb
    obtain ⟨k', hk', himp⟩ := Tree.stat_of_dirs hk hdirs
    refine ⟨_, does_isDir.2 ⟨rfl, ?_⟩, fun hdir => decide_eq_true (himp (of_decide_eq_true hdir))⟩
    rw [if_neg hflaw]
    exact ⟨k', hk', rfl⟩

/-- A removal needs the file or its absence. -/
theorem does_removeIfThere : (removeIfThere p).Does w () w' ↔ p.flaw? = none ∧
    ((∃ t, w.tree.remove p = .ok t ∧ w' = { w with tree := t }) ∨
      w.tree.remove p = .error .notFound ∧ w' = w) := by
  have hask : (ask (.remove p)).run w = (.ok (w.update p none (w.tree.remove p)).1,
      (w.update p none (w.tree.remove p)).2) := rfl
  rw [Does, removeIfThere, run_bind, hask]
  simp only [World.update]
  cases p.flaw? with
  | some flaw => simp [ofReply]
  | none =>
    cases w.tree.remove p with
    | ok t => simp [ofReply, eq_comm]
    | error cause => cases cause <;> simp [ofReply, eq_comm]

/-- A path that can be followed can be cleared, unless it leads to a directory. -/
theorem exists_removal_of_locate {l : Location} (hflaw : p.flaw? = none) (hl : w.tree.locate p = .ok l)
    (hdir : w.tree.get? l ≠ some .dir) : ∃ w', (removeIfThere p).Does w () w' := by
  cases hget : w.tree.get? l with
  | none => exact ⟨w, does_removeIfThere.2 ⟨hflaw, .inr ⟨Tree.remove_of_none hl hget, rfl⟩⟩⟩
  | some entry =>
    cases entry with
    | dir => exact absurd hget hdir
    | file bytes =>
      have hok := Tree.remove_eq_ok.2 ⟨l, hl, by rw [Tree.file?_eq_some.2 hget]; simp, rfl⟩
      exact ⟨_, does_removeIfThere.2 ⟨hflaw, .inl ⟨_, hok, rfl⟩⟩⟩

/-! Children of a directory. -/

variable {start ending : String} {ps : List Path}

/-- The listing of a directory has a name just if something is there under this name. -/
theorem exists_listBelow_iff {t : Tree} (hstat : t.stat p = .ok (some .dir)) (name : String) :
    (∃ kind, ([name], kind) ∈ t.listBelow p) ↔ t.get? (p.place ++ [name]) ≠ none := by
  have hget : t.get? (p.place ++ [name]) ≠ none ↔ ∃ e, (p.place ++ [name], e) ∈ t.entries := by
    simp [Tree.get?]
  rw [Tree.listBelow_of_stat hstat, hget]
  constructor
  · rintro ⟨kind, hmem⟩
    obtain ⟨⟨names, e⟩, hbelow, heq⟩ := List.mem_map.1 hmem
    obtain ⟨f, hf, hseen⟩ := List.mem_filterMap.1 hbelow
    obtain ⟨-, rfl⟩ := Tree.seenFrom_eq_some.1 hseen
    obtain ⟨rfl, -⟩ := Prod.mk.inj heq
    exact ⟨e, hf⟩
  · rintro ⟨e, hmem⟩
    refine ⟨e.kind, List.mem_map.2 ⟨([name], e), List.mem_filterMap.2 ⟨_, hmem, ?_⟩, rfl⟩⟩
    exact Tree.seenFrom_eq_some.2 ⟨by simp, rfl⟩

theorem exists_childrenNamed (start ending : String) (p : Path) (w : World) :
    ∃ ps, (childrenNamed start ending p).Does w ps w := ⟨_, rfl⟩

theorem mem_children_iff (h : (childrenNamed start ending p).Does w ps w') {q : Path} :
    q ∈ ps ↔ ∃ name, fitsName start ending name = true ∧
      (∃ kind, ([name], kind) ∈ w.tree.listBelow p) ∧ q = p.child name := by
  obtain ⟨found, w₁, hfound, h⟩ := does_bind.1 h
  obtain ⟨rfl, rfl⟩ := does_listBelow.1 hfound
  obtain ⟨rfl, rfl⟩ := does_pure.1 h
  rw [sortPaths, (List.mergeSort_perm ..).mem_iff]
  constructor
  · intro hq
    obtain ⟨⟨names, kind⟩, hmem, hq⟩ := List.mem_filterMap.1 hq
    split at hq
    · next name kind heq =>
      cases heq
      split at hq
      · next hfits =>
        cases hq
        exact ⟨name, hfits, ⟨kind, hmem⟩, rfl⟩
      · cases hq
    · cases hq
  · rintro ⟨name, hfits, ⟨kind, hmem⟩, rfl⟩
    exact List.mem_filterMap.2 ⟨([name], kind), hmem, if_pos hfits⟩

/-- The children of a directory that have a name of the kind. -/
theorem mem_childrenNamed (hstat : w.tree.stat p = .ok (some .dir))
    (h : (childrenNamed start ending p).Does w ps w') {q : Path} : q ∈ ps ↔
      ∃ name, fitsName start ending name = true ∧ w.tree.get? (p.place ++ [name]) ≠ none ∧
        q = p.child name := by
  simp only [mem_children_iff h, exists_listBelow_iff hstat]

end Script
end Acceptance

import Acceptance.Proofs.FileGroups
/-!
What scripts leave alone. A file that no operation of a script is on is as it was after every run of
the script, however the run ends.
-/
namespace Acceptance

open Script

variable {op : Op} {files : List (Path × String)}

/-- No directory is gone, and the files at some places are as they were. -/
structure Tree.KeepsAt (P : Location → Prop) (t t' : Tree) : Prop where
  dirs : ∀ m, t.get? m = some .dir → t'.get? m = some .dir
  files : ∀ m, P m → t'.file? m = t.file? m

/-- The operation is on no file at these places, or it does not change files. -/
def Op.SparesAt (P : Location → Prop) : Op → Prop
  | .write p _ => ¬P p.place
  | .move p q => ¬P p.place ∧ ¬P q.place
  | .remove p => ¬P p.place
  | _ => True

variable {P : Location → Prop}

namespace Tree

variable {t t' u : Tree} {l : Location}

namespace KeepsAt

theorem refl (t : Tree) : t.KeepsAt P t := ⟨fun _ => id, fun _ _ => rfl⟩

theorem trans (h : t.KeepsAt P t') (h' : t'.KeepsAt P u) : t.KeepsAt P u :=
  ⟨fun m hm => h'.dirs m (h.dirs m hm), fun m hm => (h'.files m hm).trans (h.files m hm)⟩

theorem put_file (hdir : t.get? l ≠ some .dir) (hl : ¬P l) (bytes : ByteArray) :
    t.KeepsAt P (t.put l (.file bytes)) := by
  refine ⟨fun m hm => ?_, fun m hm => file?_congr (get?_put_of_ne ?_ _ _)⟩
  · rw [get?_put_of_ne _ t, hm]
    rintro rfl
    exact hdir hm
  · rintro rfl
    exact hl hm

theorem put_dir (hl : t.get? l = none) : t.KeepsAt P (t.put l .dir) := by
  have hne : l ≠ [] := by
    rintro rfl
    cases hl
  refine ⟨fun m hm => ?_, fun m _ => ?_⟩
  · rw [get?_put_of_ne _ t, hm]
    rintro rfl
    rw [hl] at hm
    cases hm
  · by_cases hm : m = l
    · rw [hm, file?_of_dir (get?_put_self hne t .dir), file?_of_none hl]
    · exact file?_congr (get?_put_of_ne hm _ _)

theorem erase (hdir : t.get? l ≠ some .dir) (hl : ¬P l) : t.KeepsAt P (t.erase l) := by
  refine ⟨fun m hm => ?_, fun m hm => file?_congr (get?_erase_of_ne ?_ _)⟩
  · rw [get?_erase_of_ne _ t, hm]
    rintro rfl
    exact hdir hm
  · rintro rfl
    exact hl hm

end KeepsAt

theorem move_cases {p q : Path} (h : t.move p q = .ok t') : t' = t ∨
    ∃ bytes, t.get? p.place = some (.file bytes) ∧ t.get? q.place ≠ some .dir ∧ p.place ≠ q.place ∧
      t' = (t.erase p.place).put q.place (.file bytes) := by
  by_cases hne : p.place = q.place
  · left
    obtain ⟨⟨l, e⟩, hentry, h⟩ := bind_eq_ok.1 h
    cases e with
    | dir => cases h
    | file bytes =>
      obtain ⟨m, hm, h⟩ := bind_eq_ok.1 h
      have hl := locate_eq_place (entry_eq_ok.1 hentry).1
      split at h
      · cases h
      · rw [hl, locate_eq_place hm, if_pos hne] at h
        exact (Except.ok.inj h).symm
  · obtain ⟨l, m, bytes, hl, hfile, hm, hdir, rfl⟩ := (move_eq_ok hne).1 h
    obtain rfl := locate_eq_place hl
    obtain rfl := locate_eq_place hm
    exact .inr ⟨bytes, file?_eq_some.1 hfile, hdir, hne, rfl⟩

end Tree

theorem World.update_tree (w : World) (p : Path) (target : Option Path) (r : Except OsCause Tree) :
    (w.update p target r).2.tree = w.tree ∨ r = .ok (w.update p target r).2.tree := by
  unfold update
  split
  · exact .inl rfl
  · exact .inr rfl
  · exact .inl rfl

namespace Op

/-- All that an operation can do to the tree. -/
theorem perform_cases (op : Op) (w : World) : (op.perform w).2.tree = w.tree ∨
    (∃ p, op = .makeDir p ∧ w.tree.get? p.place = none ∧
      (op.perform w).2.tree = w.tree.put p.place .dir) ∨
    (∃ p bytes, op = .write p bytes ∧ w.tree.get? p.place ≠ some .dir ∧
      (op.perform w).2.tree = w.tree.put p.place (.file bytes)) ∨
    (∃ p q bytes, op = .move p q ∧ w.tree.get? p.place = some (.file bytes) ∧
      w.tree.get? q.place ≠ some .dir ∧ p.place ≠ q.place ∧
      (op.perform w).2.tree = (w.tree.erase p.place).put q.place (.file bytes)) ∨
    ∃ p, op = .remove p ∧ w.tree.get? p.place ≠ some .dir ∧
      (op.perform w).2.tree = w.tree.erase p.place := by
  cases op with
  | stat p =>
    left
    change (w.stat p).2.tree = _
    unfold World.stat
    split
    · rfl
    · rw [World.look_snd]
  | read p => exact .inl (congrArg World.tree (w.look_snd p _))
  | listBelow p => exact .inl rfl
  | launch l => exact .inl rfl
  | say line => exact .inl rfl
  | makeDir p =>
    refine (w.update_tree p none (w.tree.makeDir p)).imp_right fun ht => .inl ⟨p, rfl, ?_⟩
    obtain ⟨l, hl, hnone, heq⟩ := Tree.makeDir_eq_ok.1 ht
    obtain rfl := Tree.locate_eq_place hl
    exact ⟨hnone, heq⟩
  | write p bytes =>
    refine (w.update_tree p none (w.tree.write p bytes)).imp_right fun ht =>
      .inr (.inl ⟨p, bytes, rfl, ?_⟩)
    obtain ⟨l, hl, hdir, heq⟩ := Tree.write_eq_ok.1 ht
    obtain rfl := Tree.locate_eq_place hl
    exact ⟨hdir, heq⟩
  | move p q =>
    rcases w.update_tree p (some q) (w.tree.move p q) with ht | ht
    · exact .inl ht
    · refine (Tree.move_cases ht).imp_right ?_
      rintro ⟨bytes, hfile, hdir, hne, heq⟩
      exact .inr (.inr (.inl ⟨p, q, bytes, rfl, hfile, hdir, hne, heq⟩))
  | remove p =>
    refine (w.update_tree p none (w.tree.remove p)).imp_right fun ht =>
      .inr (.inr (.inr ⟨p, rfl, fun hdir => ?_, ?_⟩))
    · obtain ⟨l, hl, hfile, -⟩ := Tree.remove_eq_ok.1 ht
      obtain rfl := Tree.locate_eq_place hl
      exact hfile (Tree.file?_of_dir hdir)
    · obtain ⟨l, hl, -, heq⟩ := Tree.remove_eq_ok.1 ht
      obtain rfl := Tree.locate_eq_place hl
      exact heq

theorem SparesAt.perform (h : op.SparesAt P) (w : World) :
    w.tree.KeepsAt P (op.perform w).2.tree := by
  rcases op.perform_cases w with ht | ⟨p, rfl, hnone, ht⟩ | ⟨p, bytes, rfl, hdir, ht⟩ |
    ⟨p, q, bytes, rfl, hfile, hdir, hne, ht⟩ | ⟨p, rfl, hdir, ht⟩
  all_goals rw [ht]
  · exact .refl _
  · exact .put_dir hnone
  · exact .put_file hdir h bytes
  · have herase : w.tree.KeepsAt P (w.tree.erase p.place) := .erase (by simp [hfile]) h.1
    refine herase.trans (.put_file ?_ h.2 bytes)
    rwa [Tree.get?_erase_of_ne hne.symm]
  · exact .erase hdir h

theorem sparesAt_nowhere (op : Op) : op.SparesAt fun _ => False := by
  cases op <;> simp [SparesAt]

/-- The operation makes no directory but at these places. -/
def MakesAt (D : Location → Prop) : Op → Prop
  | .makeDir p => D p.place
  | _ => True

theorem MakesAt.perform {D : Location → Prop} (h : op.MakesAt D) (w : World) {m : Location}
    (hm : (op.perform w).2.tree.get? m = some .dir) : w.tree.get? m = some .dir ∨ D m := by
  have hput (t : Tree) (l : Location) (bytes : ByteArray)
      (hget : (t.put l (.file bytes)).get? m = some .dir) : t.get? m = some .dir := by
    by_cases hl : m = l
    · subst hl
      by_cases hroot : m = []
      · rw [hroot]
        rfl
      · rw [Tree.get?_put_self hroot] at hget
        cases hget
    · rwa [Tree.get?_put_of_ne hl] at hget
  have herase (t : Tree) (l : Location) (hget : (t.erase l).get? m = some .dir) :
      t.get? m = some .dir := by
    by_cases hl : m = l
    · subst hl
      by_cases hroot : m = []
      · rw [hroot]
        rfl
      · rw [Tree.get?_erase_self hroot] at hget
        cases hget
    · rwa [Tree.get?_erase_of_ne hl] at hget
  rcases op.perform_cases w with ht | ⟨p, rfl, -, ht⟩ | ⟨p, bytes, rfl, -, ht⟩ |
    ⟨p, q, bytes, rfl, -, -, -, ht⟩ | ⟨p, rfl, -, ht⟩
  all_goals rw [ht] at hm
  · exact .inl hm
  · by_cases hp : m = p.place
    · exact .inr (hp ▸ h)
    · rw [Tree.get?_put_of_ne hp] at hm
      exact .inl hm
  · exact .inl (hput _ _ _ hm)
  · exact .inl (herase _ _ (hput _ _ _ hm))
  · exact .inl (herase _ _ hm)

end Op

namespace Script

variable {α β : Type} {s : Script α} {R : Op → Prop} {G : α → Prop} {H : β → Prop}

/-- All operations that the script may ask for have a property, and so has its result. -/
def Asks (P : Op → Prop) (G : α → Prop) : Script α → Prop
  | done a => G a
  | stop _ => True
  | call op next => P op ∧ ∀ reply, (next reply).Asks P G

namespace Asks

theorem bind {k : α → Script β} (hs : s.Asks R G) (hk : ∀ a, G a → (k a).Asks R H) :
    (s >>= k).Asks R H := by
  induction s with
  | done a => exact hk a hs
  | stop f => trivial
  | call op next ih => exact ⟨hs.1, fun reply => ih reply (hs.2 reply)⟩

theorem attempt (hs : s.Asks R G) : s.attempt.Asks R fun r => ∀ a, r = .ok a → G a := by
  induction s with
  | done a =>
    rintro b hb
    cases hb
    exact hs
  | stop f =>
    rintro b hb
    cases hb
  | call op next ih => exact ⟨hs.1, fun reply => ih reply (hs.2 reply)⟩

theorem mono {R' : Op → Prop} (hR : ∀ op, R op → R' op) (hs : s.Asks R G) : s.Asks R' G := by
  induction s with
  | done a => exact hs
  | stop f => trivial
  | call op next ih => exact ⟨hR op hs.1, fun reply => ih reply (hs.2 reply)⟩

theorem ask (h : R op) : (Script.ask op).Asks R fun _ => True := ⟨h, fun _ => trivial⟩

theorem ofOutcome (o : Outcome α) : (Script.ofOutcome o).Asks R fun _ => True := by
  cases o <;> trivial

theorem ofReply (r : Except FileError α) : (Script.ofReply r).Asks R fun _ => True := by
  cases r <;> trivial

theorem forM {g : α → Script PUnit} {as : List α} (h : ∀ a ∈ as, (g a).Asks R fun _ => True) :
    (as.forM g).Asks R fun _ => True := by
  induction as with
  | nil => trivial
  | cons a as ih =>
    obtain ⟨ha, has⟩ := List.forall_mem_cons.1 h
    exact ha.bind fun _ _ => ih has

/-- What each operation keeps is kept by a run, however it ends. -/
theorem keepsAt (h : s.Asks (Op.SparesAt P) G) (w : World) : w.tree.KeepsAt P (s.run w).2.tree := by
  induction s generalizing w with
  | done a => exact .refl _
  | stop f => exact .refl _
  | call op next ih => exact (h.1.perform w).trans (ih _ (h.2 _) _)

end Asks

/-- The script leaves the files at some places alone. -/
abbrev SparesAt (P : Location → Prop) (s : Script α) : Prop := s.Asks (Op.SparesAt P) fun _ => True

variable {p : Path}

theorem asks_isDir (h : R (.stat p)) : (isDir p).Asks R fun _ => True :=
  ((Asks.ask h).bind fun _ _ => .ofReply _).bind fun _ _ => trivial

theorem asks_acceptDir (h : R (.stat p)) (r : Except FileError Unit) :
    (acceptDir p r).Asks R fun _ => True := by
  unfold acceptDir
  split
  · refine (asks_isDir h).bind fun b _ => ?_
    split <;> trivial
  · exact .ofReply _

/-- Only directories on the way are made. -/
theorem asks_makeDirsUp (hstat : ∀ q, R (.stat q)) (slashes : Nat) (parts : List Phrase)
    (hp : p = ⟨slashes, parts.reverse⟩) (hdirs : ∀ q : Path, q.place ∈ p.trail → R (.makeDir q)) :
    (makeDirsUp slashes parts).Asks R fun _ => True := by
  have hlast : R (.makeDir p) := hdirs p p.place_mem_trail
  induction parts generalizing p with
  | nil =>
    subst hp
    exact (Asks.ask hlast).bind fun r _ => asks_acceptDir (hstat _) r
  | cons part above ih =>
    have hparent : p.parent = ⟨slashes, above.reverse⟩ := by simp [hp, Path.parent]
    have habove : ∀ q : Path, q.place ∈ p.parent.trail → R (.makeDir q) := by
      intro q hq
      apply hdirs q
      rw [Path.trail_eq (by simp [hp])]
      exact List.mem_append_left _ hq
    have hup := ih hparent habove (habove _ p.parent.place_mem_trail)
    rw [makeDirsUp, ← hp]
    refine (Asks.ask hlast).bind fun reply _ => ?_
    split
    · exact hup.bind fun _ _ => (Asks.ask hlast).bind fun r _ => asks_acceptDir (hstat _) r
    · exact asks_acceptDir (hstat _) _

theorem asks_makeDirs (hstat : ∀ q, R (.stat q))
    (hdirs : ∀ q : Path, q.place ∈ p.trail → R (.makeDir q)) :
    (makeDirs p).Asks R fun _ => True :=
  asks_makeDirsUp hstat p.slashes p.parts.reverse (by rw [List.reverse_reverse]) hdirs

theorem asks_writeText {text : String} (h : R (.write p (Text.encode text))) :
    (writeText p text).Asks R fun _ => True :=
  (Asks.ask h).bind fun _ _ => .ofReply _

theorem asks_removeIfThere (h : R (.remove p)) : (removeIfThere p).Asks R fun _ => True := by
  refine (Asks.ask h).bind fun reply _ => ?_
  split
  · trivial
  · exact .ofReply _

/-- The operations that it takes to draft a file and to swap it in. -/
structure Drafts (R : Op → Prop) (f : Path × String) : Prop where
  dirs : ∀ q : Path, q.place ∈ f.1.parent.trail → R (.makeDir q)
  write : R (.write (draftOf f.1) (Text.encode f.2))
  back : R (.remove (draftOf f.1))
  swap : R (.move (draftOf f.1) f.1)

theorem asks_stage (hstat : ∀ q, R (.stat q)) {text : String} (h : Drafts R (p, text)) :
    (stage p text).Asks R fun s => s = ⟨p, draftOf p⟩ := by
  refine (asks_makeDirs hstat h.dirs).bind fun _ _ => ?_
  dsimp only
  split
  · trivial
  · exact (asks_writeText h.write).bind fun _ _ => rfl

theorem asks_stageAll (hstat : ∀ q, R (.stat q)) (hfiles : ∀ f ∈ files, Drafts R f)
    {staged : List Staged}
    (hstaged : ∀ s ∈ staged, R (.remove s.draft) ∧ R (.move s.draft s.target)) :
    (stageAll staged files).Asks R fun ss => ∀ s ∈ ss, R (.move s.draft s.target) := by
  induction files generalizing staged with
  | nil => exact fun s hs => (hstaged s hs).2
  | cons f files ih =>
    obtain ⟨hf, hrest⟩ := List.forall_mem_cons.1 hfiles
    obtain ⟨target, text⟩ := f
    refine (asks_stage hstat hf).attempt.bind fun r hr => ?_
    cases r with
    | ok s =>
      refine ih hrest (List.forall_mem_append.2 ⟨hstaged, List.forall_mem_singleton.2 ?_⟩)
      rw [hr s rfl]
      exact ⟨hf.back, hf.swap⟩
    | error f =>
      cases f with
      | os e =>
        have hback : (staged.forM fun s => removeIfThere s.draft).Asks R fun _ => True :=
          .forM fun s hs => asks_removeIfThere (hstaged s hs).1
        exact hback.bind fun _ _ => trivial
      | _ => trivial

theorem asks_putGroup (hstat : ∀ q, R (.stat q)) (hfiles : ∀ f ∈ files, Drafts R f) :
    (putGroup files).Asks R fun _ => True := by
  have hsorted : ∀ f ∈ files.mergeSort fun a b => a.1.le b.1, Drafts R f :=
    fun f hf => hfiles f ((List.mergeSort_perm ..).mem_iff.1 hf)
  refine (asks_stageAll hstat hsorted (by simp)).bind fun ss hss => .forM fun s hs => ?_
  exact (Asks.ask (hss s hs)).bind fun _ _ => .ofReply _

/-- All that writing a group may ask for. -/
theorem asks_writeGroup (hstat : ∀ q, R (.stat q)) {stale : List Path}
    (hfiles : ∀ f ∈ files, Drafts R f) (hstale : ∀ p ∈ stale, R (.remove p)) :
    (writeGroup files stale).Asks R fun _ => True := by
  rw [writeGroup_eq]
  refine (asks_putGroup hstat hfiles).bind fun _ _ => .forM fun p hp => ?_
  exact asks_removeIfThere (hstale p (List.mem_of_mem_filter hp))

/-- Making directories touches no file. -/
theorem sparesAt_makeDirs : (makeDirs p).SparesAt P :=
  asks_makeDirs (fun _ => trivial) fun _ _ => trivial

theorem sparesAt_removeIfThere (hp : ¬P p.place) : (removeIfThere p).SparesAt P :=
  asks_removeIfThere hp

end Script
end Acceptance

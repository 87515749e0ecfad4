import Acceptance.Proofs.ScriptRuns
/-!
Making directories with all that lie above them. It succeeds just where no file is in the way, and
adds what was missing on the way and nothing else.
-/
namespace Acceptance

namespace Path

variable {p : Path}

theorem join_concat {ps : List Phrase} (h : ps ≠ []) (between : String) (q : Phrase) :
    Phrase.join between (ps ++ [q]) = Phrase.join between ps ++ between ++ q := by
  induction ps with
  | nil => exact absurd rfl h
  | cons p ps ih =>
    cases ps with
    | nil => rfl
    | cons r rs =>
      have hrest := ih (by simp)
      show p ++ between ++ Phrase.join between (r :: rs ++ [q]) = _
      rw [hrest]
      exact congrArg Phrase.mk (by simp [Phrase.points_append, Phrase.join])

theorem size_visible_append (p q : Phrase) :
    (p ++ q).visible.utf8ByteSize = p.visible.utf8ByteSize + q.visible.utf8ByteSize := by
  rw [← String.utf8ByteSize_append]
  congr 1
  simp [Phrase.visible, Phrase.points_append, Text.visible]

/-- What is above a path that is short enough is short enough. -/
theorem size_parent (h : p.text.utf8ByteSize ≤ Tree.maxPathSize) :
    p.parent.text.utf8ByteSize ≤ Tree.maxPathSize := by
  by_cases hparts : p.parts = []
  · have hparent : p.parent = p := by
      cases p
      cases hparts
      rfl
    rwa [hparent]
  · by_cases hshort : p.slashes = 0 ∧ p.parts.dropLast = []
    · have htext : p.parent.text = "." := by
        rw [text, phrase, parent, if_pos hshort]
        exact Phrase.visible_ofText "."
      rw [htext]
      decide
    · have htext : p.parent.text = (p.root ++ Phrase.join "/" p.parts.dropLast : Phrase).visible := by
        rw [text, phrase, parent, if_neg hshort]
        rfl
      have hwhole : p.text = (p.root ++ Phrase.join "/" p.parts : Phrase).visible := by
        rw [text, phrase, if_neg (by simp [hparts])]
      have hgrow : (Phrase.join "/" p.parts.dropLast).visible.utf8ByteSize ≤
          (Phrase.join "/" p.parts).visible.utf8ByteSize := by
        by_cases hone : p.parts.dropLast = []
        · rw [hone]
          exact Nat.zero_le _
        · rw [← List.dropLast_append_getLast hparts, join_concat (by simpa using hone),
            size_visible_append, size_visible_append, List.dropLast_concat]
          omega
      rw [hwhole, size_visible_append] at h
      rw [htext, size_visible_append]
      omega

theorem trail_eq (h : p.parts ≠ []) : p.trail = p.parent.trail ++ [p.place] := by
  rw [trail, passed_names h]

theorem flaw?_eq_none : p.flaw? = none ↔ p.parts.any (·.text?.isNone) = false ∧
    p.parts.any (·.points.contains 0) = false := by
  rw [flaw?]
  cases p.parts.any (·.text?.isNone) <;> cases p.parts.any (·.points.contains 0) <;> simp

theorem flaw?_parent (h : p.flaw? = none) : p.parent.flaw? = none := by
  simp only [flaw?_eq_none, List.any_eq_false] at h ⊢
  exact ⟨fun part hpart => h.1 part (List.dropLast_subset _ hpart),
    fun part hpart => h.2 part (List.dropLast_subset _ hpart)⟩

end Path

namespace Tree

variable {t : Tree} {l m : Location} {ls : List Location} {p : Path} {names : List String}

/-- The tree with a directory wherever nothing was at the given locations. -/
def withDirs (t : Tree) (ls : List Location) : Tree :=
  ls.foldl (fun t l => if t.get? l = none then t.put l .dir else t) t

theorem withDirs_cons : t.withDirs (l :: ls) =
    (if t.get? l = none then t.put l .dir else t).withDirs ls := rfl

theorem withDirs_append (t : Tree) (ls ms : List Location) :
    t.withDirs (ls ++ ms) = (t.withDirs ls).withDirs ms := List.foldl_append ..

theorem get?_withDirs (t : Tree) (ls : List Location) (m : Location) :
    (t.withDirs ls).get? m = if t.get? m = none ∧ m ∈ ls then some .dir else t.get? m := by
  induction ls generalizing t with
  | nil => simp [withDirs]
  | cons l ls ih =>
    rw [withDirs_cons, ih]
    by_cases hl : t.get? l = none
    · have hne : l ≠ [] := by
        rintro rfl
        cases hl
      rw [if_pos hl]
      by_cases hm : m = l
      · simp [hm, hne, hl]
      · simp [hm]
    · rw [if_neg hl]
      by_cases hm : m = l
      · simp [hm, hl]
      · simp [hm]

theorem withDirs_of_there (h : ∀ l ∈ ls, t.get? l ≠ none) : t.withDirs ls = t := by
  induction ls with
  | nil => rfl
  | cons l ls ih =>
    rw [withDirs_cons, if_neg (h l List.mem_cons_self)]
    exact ih fun m hm => h m (List.mem_cons_of_mem _ hm)

theorem file?_withDirs (t : Tree) (ls : List Location) (m : Location) :
    (t.withDirs ls).file? m = t.file? m := by
  rw [file?, get?_withDirs]
  by_cases h : t.get? m = none ∧ m ∈ ls
  · rw [if_pos h, file?_of_none h.1]
  · rw [if_neg h]
    rfl

theorem get?_of_file?_eq_none (h : t.file? l = none) : t.get? l = none ∨ t.get? l = some .dir := by
  rw [file?] at h
  cases hl : t.get? l with
  | none => exact .inl rfl
  | some e =>
    cases e with
    | dir => exact .inr rfl
    | file bytes =>
      rw [hl] at h
      cases h

theorem get?_withDirs_of_mem (hm : m ∈ ls) (hfile : t.file? m = none) :
    (t.withDirs ls).get? m = some .dir := by
  rw [get?_withDirs]
  rcases get?_of_file?_eq_none hfile with h | h
  · rw [if_pos ⟨h, hm⟩]
  · simp [h]

theorem get?_withDirs_eq_dir (hfree : ∀ l ∈ ls, t.file? l = none) :
    (t.withDirs ls).get? m = some .dir ↔ t.get? m = some .dir ∨ m ∈ ls := by
  by_cases hm : m ∈ ls
  · simp [hm, get?_withDirs_of_mem hm (hfree m hm)]
  · simp [get?_withDirs, hm]

/-- No file is on the way of a path that can be used. -/
structure Open (t : Tree) (p : Path) : Prop where
  flaw : p.flaw? = none
  size : p.text.utf8ByteSize ≤ maxPathSize
  fits : ∀ n ∈ p.names, NameFits n
  free : ∀ l ∈ p.trail, t.file? l = none

theorem open_iff (hparts : p.parts ≠ []) : t.Open p ↔ t.Open p.parent ∧ p.flaw? = none ∧
    p.text.utf8ByteSize ≤ maxPathSize ∧ (∀ n ∈ p.names, NameFits n) ∧ t.file? p.place = none := by
  constructor
  · intro h
    have hfits := h.fits
    have hfree := h.free
    rw [Path.names_eq hparts] at hfits
    rw [Path.trail_eq hparts] at hfree
    refine ⟨⟨Path.flaw?_parent h.flaw, Path.size_parent h.size, ?_, ?_⟩, h.flaw, h.size, h.fits, ?_⟩
    · exact (List.forall_mem_append.1 hfits).1
    · exact (List.forall_mem_append.1 hfree).1
    · exact h.free _ p.place_mem_trail
  · rintro ⟨hparent, hflaw, hsize, hfits, hfile⟩
    refine ⟨hflaw, hsize, hfits, ?_⟩
    rw [Path.trail_eq hparts]
    exact List.forall_mem_append.2 ⟨hparent.free, List.forall_mem_singleton.2 hfile⟩

theorem Open.leads (h : t.Open p) : (t.withDirs p.trail).Leads p :=
  ⟨h.fits, fun l hl => get?_withDirs_of_mem hl (h.free l hl)⟩

theorem walk_of_free (hfits : ∀ n ∈ names, NameFits n) (hfree : ∀ m ∈ passed l names, t.file? m = none) :
    (∃ m, t.walk l names = .ok m) ∨ t.walk l names = .error .notFound := by
  induction names generalizing l with
  | nil => exact .inl ⟨l, rfl⟩
  | cons name names ih =>
    obtain ⟨hname, hnames⟩ := List.forall_mem_cons.1 hfits
    obtain ⟨hl, hrest⟩ := List.forall_mem_cons.1 hfree
    rw [walk]
    rcases get?_of_file?_eq_none hl with h | h
    · rw [h]
      exact .inr rfl
    · rw [h]
      have hwalk := ih hnames hrest
      rw [step] at hwalk
      split at hwalk
      · next hup => simpa [hup] using hwalk
      · next hup =>
        have hfit : ¬name.utf8ByteSize > maxNameSize := Nat.not_lt.2 (hname.resolve_left hup)
        simpa [hup, hfit] using hwalk

theorem withDirs_first (h : l ∈ ls.head?) : (t.withDirs [l]).withDirs ls = t.withDirs ls := by
  obtain ⟨ls, rfl⟩ := List.head?_eq_some_iff.1 h
  have hthere : (t.withDirs [l]).get? l ≠ none := by
    rw [get?_withDirs]
    by_cases hl : t.get? l = none <;> simp [hl]
  rw [withDirs_cons, if_neg hthere]
  rfl

theorem Sound.withDirs_one (hs : t.Sound) (hup : ".." ∉ l)
    (hparent : t.get? l = none → t.get? l.dropLast = some .dir) : (t.withDirs [l]).Sound := by
  rw [withDirs_cons]
  by_cases h : t.get? l = none
  · have hl : l ≠ [] := by
      rintro rfl
      cases h
    rw [if_pos h]
    exact hs.put hl hup (hparent h) (by simp [h]) .dir
  · rwa [if_neg h]

/-- Directories made one below the other keep a tree sound. -/
theorem Sound.withDirs_passed (hs : t.Sound) (hl : t.get? l = some .dir) (hup : ".." ∉ l)
    (hfree : ∀ m ∈ passed l names ++ [follow l names], t.file? m = none) :
    (t.withDirs (passed l names ++ [follow l names])).Sound := by
  induction names generalizing t l with
  | nil => exact hs.withDirs_one hup fun h => absurd h (by simp [follow, hl])
  | cons name names ih =>
    have hsplit : passed l (name :: names) ++ [follow l (name :: names)] =
        l :: (passed (step l name) names ++ [follow (step l name) names]) := rfl
    have hhead : step l name ∈ (passed (step l name) names ++ [follow (step l name) names]).head? := by
      cases names <;> rfl
    rw [hsplit] at hfree ⊢
    obtain ⟨-, hrest⟩ := List.forall_mem_cons.1 hfree
    have hup' : ".." ∉ step l name := up_not_mem_follow hup [name]
    -- a name that leads up leads to a directory; any other one leads to a place in one
    have hparent : t.get? (step l name) = none → t.get? (step l name).dropLast = some .dir := by
      rw [step]
      split
      · intro hnone
        by_cases hroot : l = []
        · rw [hroot] at hnone
          cases hnone
        · rw [hs.get?_dropLast hl hroot] at hnone
          cases hnone
      · intro _
        rwa [List.dropLast_concat]
    rw [withDirs_cons, if_neg (by simp [hl]), ← withDirs_first hhead]
    refine ih (hs.withDirs_one hup' hparent) ?_ hup' ?_
    · exact get?_withDirs_of_mem List.mem_cons_self (hrest _ (List.mem_of_mem_head? hhead))
    · intro m hm
      rw [file?_withDirs]
      exact hrest m hm

theorem Open.sound (h : t.Open p) (hs : t.Sound) : (t.withDirs p.trail).Sound :=
  hs.withDirs_passed (get?_root t) (by simp) h.free

theorem makeDir_of_error {cause : OsCause} (h : t.locate p = .error cause) :
    t.makeDir p = .error cause := by
  rw [makeDir, h]
  rfl

/-- Where no file is on the way and nothing is missing, the way is there. -/
theorem Open.way (h : t.Open p) (hne : t.makeDir p ≠ .error .notFound) :
    ∀ l ∈ passed [] p.names, t.get? l = some .dir := by
  have hlocate : t.locate p = t.walk [] p.names := if_neg (Nat.not_lt.2 h.size)
  rcases walk_of_free h.fits (List.forall_mem_append.1 h.free).1 with ⟨m, hwalk⟩ | hwalk
  · exact (walk_eq_ok.1 hwalk).2.2
  · exact absurd (makeDir_of_error (hlocate.trans hwalk)) hne

/-- The directory of a path, made where the way to it is there. -/
def Made (t : Tree) (p : Path) (t' : Tree) : Prop :=
  t.makeDir p = .ok t' ∨ (∃ cause, t.makeDir p = .error cause) ∧ t.stat p = .ok (some .dir) ∧ t' = t

theorem Made.way {t' : Tree} (h : t.Made p t') : ∀ l ∈ passed [] p.names, t.get? l = some .dir := by
  rcases h with h | ⟨-, hstat, -⟩
  · obtain ⟨l, hl, -⟩ := makeDir_eq_ok.1 h
    exact (locate_eq_ok.1 hl).2.2.2
  · exact (List.forall_mem_append.1 (stat_eq_dir.1 hstat).2.way).1

theorem made_iff {t' : Tree} (hway : ∀ l ∈ passed [] p.names, t.get? l = some .dir) :
    t.Made p t' ↔ p.text.utf8ByteSize ≤ maxPathSize ∧ (∀ n ∈ p.names, NameFits n) ∧
      t.file? p.place = none ∧ t' = t.withDirs [p.place] := by
  constructor
  · rintro (h | ⟨-, hstat, rfl⟩)
    · obtain ⟨l, hl, hnone, rfl⟩ := makeDir_eq_ok.1 h
      obtain ⟨hsize, rfl, hfits, -⟩ := locate_eq_ok.1 hl
      exact ⟨hsize, hfits, file?_of_none hnone, by rw [withDirs_cons, if_pos hnone]; rfl⟩
    · obtain ⟨hsize, hleads⟩ := stat_eq_dir.1 hstat
      refine ⟨hsize, hleads.fits, file?_of_dir hleads.dir, (withDirs_of_there ?_).symm⟩
      simp [hleads.dir]
  · rintro ⟨hsize, hfits, hfile, rfl⟩
    have hl := locate_eq_ok.2 ⟨hsize, rfl, hfits, hway⟩
    rcases get?_of_file?_eq_none hfile with h | h
    · exact .inl (makeDir_eq_ok.2 ⟨_, hl, h, by rw [withDirs_cons, if_pos h]; rfl⟩)
    · have hleads : t.Leads p :=
        ⟨hfits, List.forall_mem_append.2 ⟨hway, List.forall_mem_singleton.2 h⟩⟩
      refine .inr ⟨⟨.exists, ?_⟩, stat_eq_dir.2 ⟨hsize, hleads⟩, withDirs_of_there (by simp [h])⟩
      simp [makeDir, hl, h, bind, Except.bind]

end Tree

namespace Script

variable {w w' : World} {p : Path}

theorem run_ask_makeDir (p : Path) (w : World) : (ask (.makeDir p)).run w =
    (.ok (w.update p none (w.tree.makeDir p)).1, (w.update p none (w.tree.makeDir p)).2) := rfl

theorem does_acceptDir : (do acceptDir p (← ask (.makeDir p)) : Script Unit).Does w () w' ↔
    p.flaw? = none ∧ ∃ t, w.tree.Made p t ∧ w' = { w with tree := t } := by
  rw [Does, run_bind, run_ask_makeDir]
  simp only [World.update, Tree.Made]
  cases hflaw : p.flaw? with
  | some flaw => simp [acceptDir, ofReply]
  | none =>
    cases w.tree.makeDir p with
    | ok t => simp [acceptDir, ofReply, eq_comm]
    | error cause =>
      show (acceptDir p (.error (.os _))).Does w () w' ↔ _
      simp only [acceptDir, does_bind, does_isDir, hflaw]
      constructor
      · rintro ⟨b, w₁, ⟨rfl, k, hk, rfl⟩, h⟩
        by_cases hdir : k = some .dir
        · simp only [hdir, decide_true, if_true, does_pure] at h
          exact ⟨trivial, w.tree, .inr ⟨⟨cause, rfl⟩, by rw [hk, hdir], rfl⟩, h.2.symm⟩
        · simp only [hdir, decide_false] at h
          exact absurd h not_does_stop
      · rintro ⟨-, t, h | ⟨-, hstat, rfl⟩, rfl⟩
        · cases h
        · exact ⟨true, w, ⟨rfl, some .dir, hstat, rfl⟩, does_pure.2 ⟨rfl, rfl⟩⟩

section

variable {slashes : Nat} {part : Phrase} {above : List Phrase}

/-- Where the way to a directory is missing it is made first. -/
theorem does_makeDirsUp_of_notFound (hp : p = ⟨slashes, (part :: above).reverse⟩)
    (hflaw : p.flaw? = none) (h : w.tree.makeDir p = .error .notFound) :
    (makeDirsUp slashes (part :: above)).Does w () w' ↔
      ∃ w₁, (makeDirsUp slashes above).Does w () w₁ ∧
        (do acceptDir p (← ask (.makeDir p)) : Script Unit).Does w₁ () w' := by
  have hupdate : w.update p none (w.tree.makeDir p) =
      (.error (.os ⟨.notFound, p.text, none⟩), w) := by
    unfold World.update
    simp [hflaw, h]
  rw [Does, makeDirsUp, ← hp, run_bind, run_ask_makeDir, hupdate]
  exact does_seq

theorem does_makeDirsUp_of_ne (hp : p = ⟨slashes, (part :: above).reverse⟩)
    (h : p.flaw? = none → w.tree.makeDir p ≠ .error .notFound) :
    (makeDirsUp slashes (part :: above)).Does w () w' ↔
      (do acceptDir p (← ask (.makeDir p)) : Script Unit).Does w () w' := by
  rw [Does, makeDirsUp, ← hp, Does, run_bind, run_bind, run_ask_makeDir]
  simp only [World.update]
  cases hflaw : p.flaw? with
  | some flaw => rfl
  | none =>
    cases hmade : w.tree.makeDir p with
    | ok t => rfl
    | error cause =>
      cases cause with
      | notFound => exact absurd hmade (h hflaw)
      | _ => rfl

end

/-- The last step makes the directory itself. -/
theorem does_makeLast (hway : ∀ l ∈ Tree.passed [] p.names, w.tree.get? l = some .dir)
    (hflaw : p.flaw? = none) :
    (do acceptDir p (← ask (.makeDir p)) : Script Unit).Does w () w' ↔
      p.text.utf8ByteSize ≤ Tree.maxPathSize ∧ (∀ n ∈ p.names, Tree.NameFits n) ∧
        w.tree.file? p.place = none ∧ w' = { w with tree := w.tree.withDirs [p.place] } := by
  refine does_acceptDir.trans ?_
  simp only [Tree.made_iff hway, hflaw, true_and]
  constructor
  · rintro ⟨t, ⟨hsize, hfits, hfile, rfl⟩, rfl⟩
    exact ⟨hsize, hfits, hfile, rfl⟩
  · rintro ⟨hsize, hfits, hfile, rfl⟩
    exact ⟨_, ⟨hsize, hfits, hfile, rfl⟩, rfl⟩

theorem does_makeLast_of_open (hparts : p.parts ≠ []) (hflaw : p.flaw? = none)
    (h : w.tree.Open p.parent) :
    (do acceptDir p (← ask (.makeDir p)) : Script Unit).Does
        { w with tree := w.tree.withDirs p.parent.trail } () w' ↔
      w.tree.Open p ∧ w' = { w with tree := w.tree.withDirs p.trail } := by
  have hway : ∀ l ∈ Tree.passed [] p.names,
      (w.tree.withDirs p.parent.trail).get? l = some .dir := by
    rw [Path.passed_names hparts]
    exact h.leads.way
  rw [does_makeLast hway hflaw, Tree.open_iff hparts, Tree.file?_withDirs, ← Tree.withDirs_append,
    ← Path.trail_eq hparts]
  simp only [h, hflaw, true_and, and_assoc]

theorem does_makeDirsUp (slashes : Nat) (parts : List Phrase) (hp : p = ⟨slashes, parts.reverse⟩) :
    (makeDirsUp slashes parts).Does w () w' ↔
      w.tree.Open p ∧ w' = { w with tree := w.tree.withDirs p.trail } := by
  induction parts generalizing p w w' with
  | nil =>
    subst hp
    rw [makeDirsUp]
    refine (does_makeLast (by simp [Path.names, Tree.passed]) (by rfl)).trans ?_
    constructor
    · rintro ⟨hsize, hfits, hfile, hw⟩
      exact ⟨⟨rfl, hsize, hfits, List.forall_mem_singleton.2 hfile⟩, hw⟩
    · rintro ⟨hopen, hw⟩
      exact ⟨hopen.size, hopen.fits, hopen.free _ (Path.place_mem_trail _), hw⟩
  | cons part above ih =>
    have hparts : p.parts ≠ [] := by simp [hp]
    have hparent : p.parent = ⟨slashes, above.reverse⟩ := by simp [hp, Path.parent]
    have hpassed := Path.passed_names hparts
    by_cases hmiss : p.flaw? = none ∧ w.tree.makeDir p = .error .notFound
    · -- the way is missing and is made first
      rw [does_makeDirsUp_of_notFound hp hmiss.1 hmiss.2]
      constructor
      · rintro ⟨w₁, habove, hlast⟩
        obtain ⟨hopen, rfl⟩ := (ih hparent).1 habove
        exact (does_makeLast_of_open hparts hmiss.1 hopen).1 hlast
      · rintro ⟨hopen, hw⟩
        have hopen' := ((Tree.open_iff hparts).1 hopen).1
        exact ⟨_, (ih hparent).2 ⟨hopen', rfl⟩,
          (does_makeLast_of_open hparts hmiss.1 hopen').2 ⟨hopen, hw⟩⟩
    · rw [does_makeDirsUp_of_ne hp fun hflaw h => hmiss ⟨hflaw, h⟩]
      have hthere : (∀ l ∈ p.parent.trail, w.tree.get? l = some .dir) →
          { w with tree := w.tree.withDirs p.parent.trail } = w := by
        intro hway
        rw [Tree.withDirs_of_there fun l hl => by simp [hway l hl]]
      constructor
      · intro h
        obtain ⟨hflaw, t, hmade, -⟩ := does_acceptDir.1 h
        have hway := hmade.way
        obtain ⟨hsize, hfits, hfile, -⟩ := (does_makeLast hway hflaw).1 h
        rw [hpassed] at hway
        have hopen : w.tree.Open p.parent := by
          refine ⟨Path.flaw?_parent hflaw, Path.size_parent hsize, ?_, fun l hl => ?_⟩
          · rw [Path.names_eq hparts] at hfits
            exact (List.forall_mem_append.1 hfits).1
          · exact Tree.file?_of_dir (hway l hl)
        rw [← hthere hway] at h
        exact (does_makeLast_of_open hparts hflaw hopen).1 h
      · rintro ⟨hopen, hw⟩
        have hway := hopen.way fun h => hmiss ⟨hopen.flaw, h⟩
        rw [hpassed] at hway
        have hopen' := ((Tree.open_iff hparts).1 hopen).1
        have hlast := (does_makeLast_of_open hparts hopen.flaw hopen').2 ⟨hopen, hw⟩
        rwa [hthere hway] at hlast

theorem does_makeDirs : (makeDirs p).Does w () w' ↔
    w.tree.Open p ∧ w' = { w with tree := w.tree.withDirs p.trail } :=
  does_makeDirsUp p.slashes p.parts.reverse (by rw [List.reverse_reverse])

end Script
end Acceptance

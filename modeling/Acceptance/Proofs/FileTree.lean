import Mathlib.Data.List.Induction
import Mathlib.Data.List.Nodup
import Acceptance.Tree.Basic
/-!
File trees. Where a path leads is told by its names alone; a tree decides whether one gets there. In
a sound tree everything lies in a directory.
-/
namespace Acceptance

namespace Tree

/-- Where a name leads from a location. -/
def step (l : Location) (name : String) : Location := if name = ".." then l.dropLast else l ++ [name]

/-- Where names lead from a location. -/
def follow (l : Location) (names : List String) : Location := names.foldl step l

/-- The locations at which the names are taken, from the first on. -/
def passed : Location → List String → List Location
  | _, [] => []
  | l, name :: rest => l :: passed (step l name) rest

/-- No name but the one that leads up is too long. -/
def NameFits (name : String) : Prop := name = ".." ∨ name.utf8ByteSize ≤ maxNameSize

theorem step_of_ne {name : String} (h : name ≠ "..") (l : Location) : step l name = l ++ [name] :=
  if_neg h

theorem follow_append (l : Location) (ms ns : List String) :
    follow l (ms ++ ns) = follow (follow l ms) ns := List.foldl_append ..

theorem passed_append (l : Location) (ms ns : List String) :
    passed l (ms ++ ns) = passed l ms ++ passed (follow l ms) ns := by
  induction ms generalizing l with
  | nil => rfl
  | cons m ms ih => rw [List.cons_append, passed, ih, passed, List.cons_append]; rfl

theorem follow_of_not_mem {names : List String} (h : ".." ∉ names) (l : Location) :
    follow l names = l ++ names := by
  induction names generalizing l with
  | nil => simp [follow]
  | cons name names ih =>
    obtain ⟨hname, hnames⟩ := not_or.1 (mt List.mem_cons.2 h)
    have hrest := ih hnames (l ++ [name])
    rw [List.append_assoc] at hrest
    rw [follow, List.foldl_cons, step_of_ne (Ne.symm hname)]
    exact hrest

theorem up_not_mem_follow {l : Location} (h : ".." ∉ l) (names : List String) :
    ".." ∉ follow l names := by
  induction names generalizing l with
  | nil => exact h
  | cons name names ih =>
    refine ih ?_
    rw [step]
    split
    · exact fun hmem => h (List.dropLast_subset _ hmem)
    · next hname => simpa [Ne.symm hname] using h

variable {t u : Tree} {l m : Location} {names : List String}

/-- Names that lead down pass what is above their end. -/
theorem mem_passed (hup : ".." ∉ names) (hm : m ∈ passed l names) :
    ∃ above rest, names = above ++ rest ∧ rest ≠ [] ∧ m = l ++ above := by
  induction names generalizing l with
  | nil => cases hm
  | cons name names ih =>
    obtain ⟨hname, hnames⟩ := not_or.1 (mt List.mem_cons.2 hup)
    rcases List.mem_cons.1 hm with rfl | hm
    · exact ⟨[], name :: names, rfl, by simp, by simp⟩
    · obtain ⟨above, rest, rfl, hrest, rfl⟩ := ih hnames hm
      refine ⟨name :: above, rest, rfl, hrest, ?_⟩
      rw [step_of_ne (Ne.symm hname), List.append_assoc]
      rfl

/-- A walk gets through if each name is taken at a directory. -/
theorem walk_eq_ok : t.walk l names = .ok m ↔ m = follow l names ∧ (∀ n ∈ names, NameFits n) ∧
    ∀ d ∈ passed l names, t.get? d = some .dir := by
  induction names generalizing l with
  | nil => simp [walk, follow, passed, eq_comm]
  | cons name names ih =>
    rw [walk]
    cases hl : t.get? l with
    | none => simp [passed, hl]
    | some e =>
      cases e with
      | file bytes => simp [passed, hl]
      | dir =>
        by_cases hup : name = ".."
        · simp [hup, ih, passed, hl, follow, step, NameFits]
        · by_cases hlong : name.utf8ByteSize > maxNameSize
          · have hnot : ¬NameFits name := by
              rintro (h | h)
              · exact hup h
              · omega
            simp [hup, hlong, hnot]
          · have hfits : NameFits name := .inr (by omega)
            simp [hup, hlong, ih, passed, hl, follow, step, hfits]

/-- A name that is too long is met wherever there are as many directories. -/
theorem walk_tooLong_of_dirs (h : t.walk l names = .error .nameTooLong)
    (hdirs : ∀ d ∈ passed l names, t.get? d = some .dir → u.get? d = some .dir) :
    u.walk l names = .error .nameTooLong := by
  induction names generalizing l with
  | nil => cases h
  | cons name names ih =>
    obtain ⟨hl, hrest⟩ := List.forall_mem_cons.1 hdirs
    rw [walk] at h ⊢
    cases hget : t.get? l with
    | none => simp [hget] at h
    | some e =>
      cases e with
      | file bytes => simp [hget] at h
      | dir =>
        rw [hget] at h
        rw [hl hget]
        rw [step] at hrest
        by_cases hup : name = ".."
        · simp only [hup, if_true] at h hrest ⊢
          exact ih h hrest
        · simp only [hup, if_false] at h hrest ⊢
          split at h
          · next hlong => rw [if_pos hlong]
          · next hlong =>
            rw [if_neg hlong]
            exact ih h hrest

/-- A walk that finds nothing has passed a place where nothing is. -/
theorem exists_missing_of_walk (h : t.walk l names = .error .notFound) :
    ∃ m ∈ passed l names, t.get? m = none := by
  induction names generalizing l with
  | nil => cases h
  | cons name names ih =>
    rw [walk] at h
    cases hget : t.get? l with
    | none => exact ⟨l, List.mem_cons_self, hget⟩
    | some e =>
      rw [hget] at h
      cases e with
      | file bytes => cases h
      | dir =>
        have hlater : t.walk (step l name) names = .error .notFound := by
          rw [step]
          dsimp only at h
          split at h
          · next hup => rwa [if_pos hup]
          · next hup =>
            rw [if_neg hup]
            split at h
            · cases h
            · exact h
        obtain ⟨m, hm, hnone⟩ := ih hlater
        exact ⟨m, List.mem_cons_of_mem _ hm, hnone⟩

/-! Sound trees. -/

/-- Each location has one entry and lies in a directory, and no name leads up. -/
structure Sound (t : Tree) : Prop where
  nodup : (t.entries.map (·.1)).Nodup
  named : ∀ e ∈ t.entries, e.1 ≠ [] ∧ ".." ∉ e.1
  parent : ∀ e ∈ t.entries, t.get? e.1.dropLast = some .dir

theorem mem_of_get? {e : Entry} (hl : l ≠ []) (h : t.get? l = some e) : (l, e) ∈ t.entries := by
  rw [get?, if_neg hl] at h
  obtain ⟨f, hf, rfl⟩ := Option.map_eq_some_iff.1 h
  have hkey : f.1 = l := by simpa using List.find?_some hf
  rw [← hkey]
  exact List.mem_of_find?_eq_some hf

theorem get?_eq_some_iff {e : Entry} (hnodup : (t.entries.map (·.1)).Nodup) (hl : l ≠ []) :
    t.get? l = some e ↔ (l, e) ∈ t.entries := by
  refine ⟨mem_of_get? hl, fun h => ?_⟩
  cases hfind : t.get? l with
  | none =>
    rw [get?, if_neg hl, Option.map_eq_none_iff, List.find?_eq_none] at hfind
    exact absurd (decide_eq_true rfl) (hfind (l, e) h)
  | some f =>
    have heq := List.inj_on_of_nodup_map hnodup (mem_of_get? hl hfind) h rfl
    rw [(Prod.mk.inj heq).2]

namespace Sound

variable {e : Entry}

theorem get?_of_mem (hs : t.Sound) (h : (l, e) ∈ t.entries) : t.get? l = some e :=
  (get?_eq_some_iff hs.nodup (hs.named _ h).1).2 h

theorem up_not_mem (hs : t.Sound) (h : t.get? l = some e) : ".." ∉ l := by
  by_cases hl : l = []
  · simp [hl]
  · exact (hs.named _ (mem_of_get? hl h)).2

theorem get?_dropLast (hs : t.Sound) (h : t.get? l = some e) (hl : l ≠ []) :
    t.get? l.dropLast = some .dir := hs.parent _ (mem_of_get? hl h)

/-- Whatever is above an entry is a directory. -/
theorem get?_of_append (hs : t.Sound) (h : t.get? (l ++ m) = some e) (hm : m ≠ []) :
    t.get? l = some .dir := by
  induction m using List.reverseRecOn generalizing e with
  | nil => exact absurd rfl hm
  | append_singleton m n ih =>
    have hdir := hs.get?_dropLast h (by simp)
    rw [← List.append_assoc, List.dropLast_concat] at hdir
    by_cases hm : m = []
    · simpa [hm] using hdir
    · exact ih hdir hm

theorem put (hs : t.Sound) (hl : l ≠ []) (hup : ".." ∉ l) (hparent : t.get? l.dropLast = some .dir)
    (hdir : t.get? l ≠ some .dir) (e : Entry) : (t.put l e).Sound := by
  have hne : l.dropLast ≠ l := by
    intro h
    have hlength := congrArg List.length h
    have hpos := List.length_pos_iff.2 hl
    rw [List.length_dropLast] at hlength
    omega
  have hold : ∀ f ∈ (t.erase l).entries, f ∈ t.entries ∧ f.1 ≠ l := by
    intro f hf
    simpa [erase] using hf
  refine ⟨?_, ?_, ?_⟩
  · have hrest : ((t.erase l).entries.map (·.1)).Nodup :=
      hs.nodup.sublist (List.filter_sublist.map _)
    refine List.nodup_cons.2 ⟨fun hmem => ?_, hrest⟩
    obtain ⟨f, hf, he⟩ := List.mem_map.1 hmem
    exact (hold f hf).2 he
  · exact List.forall_mem_cons.2 ⟨⟨hl, hup⟩, fun f hf => hs.named f (hold f hf).1⟩
  · refine List.forall_mem_cons.2 ⟨by rwa [get?_put_of_ne hne], fun f hf => ?_⟩
    have hfparent := hs.parent f (hold f hf).1
    have hother : f.1.dropLast ≠ l := fun h => hdir (h ▸ hfparent)
    rwa [get?_put_of_ne hother]

theorem erase (hs : t.Sound) (hdir : t.get? l ≠ some .dir) : (t.erase l).Sound := by
  have hold : ∀ f ∈ (t.erase l).entries, f ∈ t.entries := by
    intro f hf
    exact (List.mem_filter.1 hf).1
  refine ⟨hs.nodup.sublist (List.filter_sublist.map _), fun f hf => hs.named f (hold f hf), ?_⟩
  intro f hf
  have hfparent := hs.parent f (hold f hf)
  have hother : f.1.dropLast ≠ l := fun h => hdir (h ▸ hfparent)
  rwa [get?_erase_of_ne hother]

end Sound

end Tree

/-! Paths. -/

namespace Path

variable {p : Path} {name : String}

/-- Where a path leads, if one gets there. -/
def place (p : Path) : Location := Tree.follow [] p.names

/-- The locations on the way of a path, the last one included. -/
def trail (p : Path) : List Location := Tree.passed [] p.names ++ [p.place]

/-- The path ends in a name, and the name leads down. -/
structure Proper (p : Path) : Prop where
  parts : p.parts ≠ []
  name : p.name ≠ ".."

/-- A file can have the path: neither it nor its last name is too long. -/
structure Usable (p : Path) : Prop where
  flaw : p.flaw? = none
  size : p.text.utf8ByteSize ≤ Tree.maxPathSize
  name : p.name.utf8ByteSize ≤ Tree.maxNameSize

theorem proper_child (h : name ≠ "..") (d : Path) : (d.child name).Proper :=
  ⟨by simp [child, below], by rwa [name_child]⟩

theorem names_eq (h : p.parts ≠ []) : p.names = p.parent.names ++ [p.name] := by
  have hnames : p.names ≠ [] := by simpa [names] using h
  have hparent : p.parent.names = p.names.dropLast := List.map_dropLast
  have hname : p.name = p.names.getLast hnames := by
    rw [Path.name, List.getLast?_eq_some_getLast hnames, Option.getD_some]
  rw [hparent, hname, List.dropLast_append_getLast]

theorem Proper.place_eq (h : p.Proper) : p.place = p.parent.place ++ [p.name] := by
  rw [place, names_eq h.parts, Tree.follow_append]
  exact Tree.step_of_ne h.name _

theorem place_child (h : name ≠ "..") (d : Path) : (d.child name).place = d.place ++ [name] := by
  rw [(proper_child h d).place_eq, parent_child, name_child]

theorem passed_names (h : p.parts ≠ []) : Tree.passed [] p.names = p.parent.trail := by
  rw [names_eq h, Tree.passed_append]
  rfl

theorem up_not_mem_place (p : Path) : ".." ∉ p.place := Tree.up_not_mem_follow (by simp) _

theorem place_mem_trail (p : Path) : p.place ∈ p.trail := by simp [trail]

end Path

namespace Tree

variable {t u : Tree} {d p : Path} {l : Location} {name : String}

/-- The path leads to a directory. -/
structure Leads (t : Tree) (d : Path) : Prop where
  fits : ∀ n ∈ d.names, NameFits n
  way : ∀ l ∈ d.trail, t.get? l = some .dir

theorem Leads.dir (h : t.Leads d) : t.get? d.place = some .dir := h.way _ d.place_mem_trail

theorem Leads.mono (h : t.Leads d)
    (hdirs : ∀ l ∈ d.trail, t.get? l = some .dir → u.get? l = some .dir) : u.Leads d :=
  ⟨h.fits, fun l hl => hdirs l hl (h.way l hl)⟩

theorem locate_eq_ok : t.locate p = .ok l ↔ p.text.utf8ByteSize ≤ maxPathSize ∧ l = p.place ∧
    (∀ n ∈ p.names, NameFits n) ∧ ∀ m ∈ passed [] p.names, t.get? m = some .dir := by
  rw [locate]
  split
  · next hlong =>
    refine ⟨fun h => (by cases h), fun h => ?_⟩
    omega
  · next hsize => rw [walk_eq_ok, and_iff_right (Nat.not_lt.1 hsize), Path.place]

theorem locate_eq_place (h : t.locate p = .ok l) : l = p.place := (locate_eq_ok.1 h).2.1

/-- One gets to a place in a directory by getting to the directory. -/
theorem locate_of_proper (hp : p.Proper) : t.locate p = .ok l ↔ l = p.place ∧ t.Leads p.parent ∧
    p.text.utf8ByteSize ≤ maxPathSize ∧ p.name.utf8ByteSize ≤ maxNameSize := by
  have hfits : NameFits p.name ↔ p.name.utf8ByteSize ≤ maxNameSize :=
    ⟨fun h => h.resolve_left hp.name, .inr⟩
  rw [locate_eq_ok, Path.passed_names hp.parts, Path.names_eq hp.parts, List.forall_mem_append,
    List.forall_mem_singleton, hfits]
  constructor
  · rintro ⟨hsize, hl, ⟨hnames, hlong⟩, hway⟩
    exact ⟨hl, ⟨hnames, hway⟩, hsize, hlong⟩
  · rintro ⟨hl, hleads, hsize, hlong⟩
    exact ⟨hsize, hl, ⟨hleads.fits, hlong⟩, hleads.way⟩

theorem entry_of_locate (h : t.locate p = .ok l) :
    t.entry p = match t.get? l with
      | some e => .ok (l, e)
      | none => .error .notFound := by
  rw [entry, h]
  rfl

theorem entry_of_error {cause : OsCause} (h : t.locate p = .error cause) :
    t.entry p = .error cause := by
  rw [entry, h]
  rfl

theorem entry_eq_ok {e : Entry} :
    t.entry p = .ok (l, e) ↔ t.locate p = .ok l ∧ t.get? l = some e := by
  cases h : t.locate p with
  | error cause => simp [entry_of_error h]
  | ok m =>
    rw [entry_of_locate h, Except.ok.injEq]
    cases hm : t.get? m with
    | none =>
      refine ⟨fun he => (by cases he), ?_⟩
      rintro ⟨rfl, he⟩
      rw [hm] at he
      cases he
    | some f =>
      rw [Except.ok.injEq, Prod.mk.injEq]
      refine and_congr_right ?_
      rintro rfl
      rw [hm, Option.some.injEq]

/-- A directory is found by a path that leads to it. -/
theorem stat_eq_dir :
    t.stat p = .ok (some .dir) ↔ p.text.utf8ByteSize ≤ maxPathSize ∧ t.Leads p := by
  have hentry : t.stat p = .ok (some .dir) ↔ ∃ l, t.entry p = .ok (l, .dir) := by
    rw [stat]
    cases h : t.entry p with
    | error cause => cases cause <;> simp
    | ok r =>
      obtain ⟨l, e⟩ := r
      cases e <;> simp [Entry.kind]
  rw [hentry]
  constructor
  · rintro ⟨l, h⟩
    obtain ⟨hl, hdir⟩ := entry_eq_ok.1 h
    obtain ⟨hsize, rfl, hfits, hpassed⟩ := locate_eq_ok.1 hl
    exact ⟨hsize, hfits, List.forall_mem_append.2 ⟨hpassed, List.forall_mem_singleton.2 hdir⟩⟩
  · rintro ⟨hsize, hleads⟩
    have hpassed := (List.forall_mem_append.1 hleads.way).1
    exact ⟨p.place, entry_eq_ok.2 ⟨locate_eq_ok.2 ⟨hsize, rfl, hleads.fits, hpassed⟩, hleads.dir⟩⟩

theorem stat_eq_error {cause : OsCause} : t.stat p = .error cause ↔
    cause = .nameTooLong ∧ t.locate p = .error .nameTooLong := by
  rw [stat]
  cases hl : t.locate p with
  | error c =>
    rw [entry_of_error hl]
    cases c <;> simp [eq_comm]
  | ok l =>
    rw [entry_of_locate hl]
    cases t.get? l <;> simp

theorem locate_tooLong_of_dirs (h : t.locate p = .error .nameTooLong)
    (hdirs : ∀ m ∈ p.trail, t.get? m = some .dir → u.get? m = some .dir) :
    u.locate p = .error .nameTooLong := by
  rw [locate] at h ⊢
  split at h
  · next hlong => rw [if_pos hlong]
  · next hlong =>
    rw [if_neg hlong]
    exact walk_tooLong_of_dirs h (List.forall_mem_append.1 hdirs).1

/-- What can be asked of a tree can be asked of one with fewer directories on the way. -/
theorem stat_of_dirs {k : Option EntryKind} (h : t.stat p = .ok k)
    (hdirs : ∀ m ∈ p.trail, u.get? m = some .dir → t.get? m = some .dir) :
    ∃ k', u.stat p = .ok k' ∧ (k' = some .dir → k = some .dir) := by
  cases hu : u.stat p with
  | error cause =>
    obtain ⟨-, hlocate⟩ := stat_eq_error.1 hu
    rw [stat_eq_error.2 ⟨rfl, locate_tooLong_of_dirs hlocate hdirs⟩] at h
    cases h
  | ok k' =>
    refine ⟨k', rfl, ?_⟩
    rintro rfl
    obtain ⟨hsize, hleads⟩ := stat_eq_dir.1 hu
    rw [stat_eq_dir.2 ⟨hsize, hleads.mono hdirs⟩] at h
    exact (Except.ok.inj h).symm

/-! Regular files. -/

/-- The bytes of the file at a location, if there is a file. -/
def file? (t : Tree) (l : Location) : Option ByteArray :=
  match t.get? l with
  | some (.file bytes) => some bytes
  | _ => none

theorem file?_eq_some {bytes : ByteArray} :
    t.file? l = some bytes ↔ t.get? l = some (.file bytes) := by
  rw [file?]
  split
  · next h => rw [h, Option.some.injEq, Option.some.injEq, Entry.file.injEq]
  · next h => exact ⟨fun hb => (by cases hb), fun hb => absurd hb (h bytes)⟩

theorem file?_of_dir (h : t.get? l = some .dir) : t.file? l = none := by rw [file?, h]

theorem file?_of_none (h : t.get? l = none) : t.file? l = none := by rw [file?, h]

theorem file?_congr (h : t.get? l = u.get? l) : t.file? l = u.file? l := by rw [file?, file?, h]

theorem read_eq_ok {bytes : ByteArray} :
    t.read p = .ok bytes ↔ ∃ l, t.locate p = .ok l ∧ t.file? l = some bytes := by
  simp only [file?_eq_some, ← entry_eq_ok]
  rw [read]
  cases t.entry p with
  | error cause => simp [bind, Except.bind]
  | ok r =>
    obtain ⟨l, e⟩ := r
    cases e <;> simp [bind, Except.bind]

/-! Operations. -/

variable {t' : Tree} {bytes : ByteArray}

theorem write_eq_ok : t.write p bytes = .ok t' ↔
    ∃ l, t.locate p = .ok l ∧ t.get? l ≠ some .dir ∧ t' = t.put l (.file bytes) := by
  rw [write]
  cases t.locate p with
  | error cause => simp [bind, Except.bind]
  | ok l =>
    simp only [bind, Except.bind]
    split
    · next hdir => simp [hdir]
    · next hdir =>
      have hdir : t.get? l ≠ some .dir := hdir
      simp [hdir, @eq_comm _ t']

theorem makeDir_eq_ok : t.makeDir p = .ok t' ↔
    ∃ l, t.locate p = .ok l ∧ t.get? l = none ∧ t' = t.put l .dir := by
  rw [makeDir]
  cases t.locate p with
  | error cause => simp [bind, Except.bind]
  | ok l => cases h : t.get? l <;> simp [bind, Except.bind, h, eq_comm]

theorem remove_eq_ok : t.remove p = .ok t' ↔
    ∃ l, t.locate p = .ok l ∧ t.file? l ≠ none ∧ t' = t.erase l := by
  rw [remove]
  cases h : t.locate p with
  | error cause => simp [entry_of_error h, bind, Except.bind]
  | ok l =>
    rw [entry_of_locate h]
    cases hl : t.get? l with
    | none => simp [bind, Except.bind, file?, hl]
    | some e => cases e <;> simp [bind, Except.bind, file?, hl, @eq_comm _ t']

theorem remove_of_error {cause : OsCause} (h : t.locate p = .error cause) :
    t.remove p = .error cause := by
  rw [remove, entry_of_error h]
  rfl

theorem remove_of_none (h : t.locate p = .ok l) (hl : t.get? l = none) :
    t.remove p = .error .notFound := by
  rw [remove, entry_of_locate h, hl]
  rfl

theorem remove_of_dir (h : t.locate p = .ok l) (hl : t.get? l = some .dir) :
    t.remove p = .error .isADirectory := by
  rw [remove, entry_of_locate h, hl]
  rfl

/-- A file that is moved takes its bytes with it. -/
theorem move_eq_ok {q : Path} (hne : p.place ≠ q.place) : t.move p q = .ok t' ↔
    ∃ l m bytes, t.locate p = .ok l ∧ t.file? l = some bytes ∧ t.locate q = .ok m ∧
      t.get? m ≠ some .dir ∧ t' = (t.erase l).put m (.file bytes) := by
  rw [move]
  cases h : t.locate p with
  | error cause => simp [entry_of_error h, bind, Except.bind]
  | ok l =>
    rw [entry_of_locate h]
    cases hl : t.get? l with
    | none => simp [bind, Except.bind, file?, hl]
    | some e =>
      cases e with
      | dir => simp [bind, Except.bind, file?, hl]
      | file bytes =>
        cases h' : t.locate q with
        | error cause => simp [bind, Except.bind]
        | ok m =>
          have hlm : l ≠ m := by rwa [locate_eq_place h, locate_eq_place h']
          simp only [bind, Except.bind, if_neg hlm]
          split
          · next hdir => simp [hdir]
          · next hdir =>
            have hdir : t.get? m ≠ some .dir := hdir
            simp [hdir, file?, hl, @eq_comm _ t']

/-! Files that are taken out. -/

/-- A tree without the files at some locations. Directories stay. -/
def withoutFiles (t : Tree) (P : Location → Prop) [DecidablePred P] : Tree :=
  ⟨t.entries.filter fun f => ¬(f.2.kind = .file ∧ P f.1)⟩

section WithoutFiles

variable {m : Location} {P : Location → Prop} [DecidablePred P]

theorem get?_withoutFiles (hs : t.Sound) {e : Entry} :
    (t.withoutFiles P).get? m = some e ↔ t.get? m = some e ∧ ¬(e.kind = .file ∧ P m) := by
  by_cases hm : m = []
  · subst hm
    rw [get?_root, get?_root, Option.some.injEq, iff_self_and]
    rintro rfl ⟨hkind, -⟩
    cases hkind
  · have hnodup : ((t.withoutFiles P).entries.map (·.1)).Nodup :=
      hs.nodup.sublist (List.filter_sublist.map _)
    rw [get?_eq_some_iff hnodup hm, get?_eq_some_iff hs.nodup hm, withoutFiles, List.mem_filter,
      decide_eq_true_iff]

theorem Sound.withoutFiles (hs : t.Sound) : (t.withoutFiles P).Sound := by
  have hold : ∀ f ∈ (t.withoutFiles P).entries, f ∈ t.entries := fun f hf => (List.mem_filter.1 hf).1
  refine ⟨hs.nodup.sublist (List.filter_sublist.map _), fun f hf => hs.named f (hold f hf), fun f hf => ?_⟩
  rw [get?_withoutFiles hs]
  exact ⟨hs.parent f (hold f hf), fun h => by cases h.1⟩

theorem get?_withoutFiles_dir (hs : t.Sound) :
    (t.withoutFiles P).get? m = some .dir ↔ t.get? m = some .dir := by
  rw [get?_withoutFiles hs, and_iff_left]
  rintro ⟨hkind, -⟩
  cases hkind

theorem file?_withoutFiles (hs : t.Sound) :
    (t.withoutFiles P).file? m = if P m then none else t.file? m := by
  ext bytes
  rw [file?_eq_some, get?_withoutFiles hs]
  split
  · next hm => simp [Entry.kind, hm]
  · next hm => simp [file?_eq_some, hm]

end WithoutFiles

/-! What is below a location. -/

/-- What an entry is as seen from a location above it. -/
def seenFrom (l : Location) (f : Location × Entry) : Option (Location × Entry) :=
  if l.isPrefixOf f.1 ∧ l ≠ f.1 then some (f.1.drop l.length, f.2) else none

theorem seenFrom_eq_some {f : Location × Entry} {names : List String} {e : Entry} :
    seenFrom l f = some (names, e) ↔ names ≠ [] ∧ f = (l ++ names, e) := by
  unfold seenFrom
  constructor
  · intro h
    split at h
    · next hbelow =>
      obtain ⟨rest, hrest⟩ := List.isPrefixOf_iff_prefix.1 hbelow.1
      rw [← hrest, List.drop_left, Option.some.injEq, Prod.mk.injEq] at h
      obtain ⟨rfl, rfl⟩ := h
      refine ⟨?_, Prod.ext hrest.symm rfl⟩
      rintro rfl
      exact hbelow.2 (by simpa using hrest)
    · cases h
  · rintro ⟨hne, rfl⟩
    simp [hne]

theorem listBelow_of_stat (h : t.stat p = .ok (some .dir)) :
    t.listBelow p = (t.below p.place).map fun f => (f.1, f.2.kind) := by
  obtain ⟨hsize, hleads⟩ := stat_eq_dir.1 h
  have hlocate : t.locate p = .ok p.place :=
    locate_eq_ok.2 ⟨hsize, rfl, hleads.fits, (List.forall_mem_append.1 hleads.way).1⟩
  rw [listBelow, entry_eq_ok.2 ⟨hlocate, hleads.dir⟩]

theorem Sound.mem_below (hs : t.Sound) {names : List String} {e : Entry} :
    (names, e) ∈ t.below l ↔ names ≠ [] ∧ t.get? (l ++ names) = some e := by
  have hbelow : (names, e) ∈ t.below l ↔ ∃ f ∈ t.entries, seenFrom l f = some (names, e) :=
    List.mem_filterMap
  simp only [hbelow, seenFrom_eq_some]
  constructor
  · rintro ⟨f, hf, hne, rfl⟩
    exact ⟨hne, hs.get?_of_mem hf⟩
  · rintro ⟨hne, hget⟩
    exact ⟨_, mem_of_get? (by simp [hne]) hget, hne, rfl⟩

theorem Sound.nodup_below (hs : t.Sound) (l : Location) : (t.below l).Nodup := by
  have hentries : t.entries.Nodup := hs.nodup.of_map _
  refine hentries.filterMap fun f g b hf hg => ?_
  rw [(seenFrom_eq_some.1 hf).2, (seenFrom_eq_some.1 hg).2]

end Tree
end Acceptance

import Acceptance.Proofs.KeptFiles
import Acceptance.Proofs.SpecWork
/-!
Work on the files of specs keeps the specs: it takes away no directory and touches no file with a name
like that of a spec. So specs are read the same at any time, even after work that was broken off.
-/
namespace Acceptance

open Script

/-- A spec could be here. -/
def IsSpecPlace (l : Location) : Prop := fitsName "" ".gwt" (l.getLast?.getD "") = true

instance : DecidablePred IsSpecPlace :=
  fun l => inferInstanceAs (Decidable (fitsName "" ".gwt" (l.getLast?.getD "") = true))

/-- No directory is gone, and all files that could be specs are as they were. -/
structure Tree.KeepsSpecs (t t' : Tree) : Prop where
  dirs : ∀ m, t.get? m = some .dir → t'.get? m = some .dir
  specs : ∀ m, IsSpecPlace m → t'.file? m = t.file? m

/-- The operation is on no file that could be a spec, or it does not change files. -/
def Op.SparesSpecs : Op → Prop
  | .write p _ => ¬IsSpecPlace p.place
  | .move p q => ¬IsSpecPlace p.place ∧ ¬IsSpecPlace q.place
  | .remove p => ¬IsSpecPlace p.place
  | _ => True

namespace Tree.KeepsSpecs

variable {t t' u : Tree}

theorem refl (t : Tree) : t.KeepsSpecs t := ⟨fun _ => id, fun _ _ => rfl⟩

theorem trans (h : t.KeepsSpecs t') (h' : t'.KeepsSpecs u) : t.KeepsSpecs u :=
  ⟨fun m hm => h'.dirs m (h.dirs m hm), fun m hm => (h'.specs m hm).trans (h.specs m hm)⟩

end Tree.KeepsSpecs

theorem Op.sparesSpecs_iff {op : Op} : op.SparesSpecs ↔ op.SparesAt IsSpecPlace := by
  cases op <;> rfl

namespace Script

variable {α : Type} {G : α → Prop}

theorem Asks.keepsSpecs {s : Script α} (h : s.Asks Op.SparesSpecs G) (w : World) :
    w.tree.KeepsSpecs (s.run w).2.tree := by
  have hkeeps := (Asks.mono (fun _ => Op.sparesSpecs_iff.1) h).keepsAt w
  exact ⟨hkeeps.dirs, hkeeps.files⟩

/-- The script leaves all files alone that could be specs. -/
abbrev SparesSpecs (s : Script α) : Prop := s.Asks Op.SparesSpecs fun _ => True

/-- Only names that end as those of specs do are names of specs. -/
theorem not_isSpecPlace {l : Location} {name : String} (h : name.toList.getLast? ≠ some 't') :
    ¬IsSpecPlace (l ++ [name]) := by
  intro hspec
  rw [IsSpecPlace, List.getLast?_concat, Option.getD_some, fitsName, Bool.and_eq_true,
    Bool.and_eq_true, List.isSuffixOf_iff_suffix] at hspec
  obtain ⟨start, hname⟩ := hspec.1.2
  apply h
  rw [← hname, List.getLast?_append_of_ne_nil _ (by decide)]
  rfl

theorem not_isSpecPlace_draftOf (p : Path) : ¬IsSpecPlace (draftOf p).place := by
  rw [show (draftOf p).place = p.draftPlace from rfl, Path.draftPlace_eq]
  apply not_isSpecPlace
  rw [toList_draftName]
  simp [List.getLast?_cons]

end Script

namespace Project

variable {root : Path} {settings : Settings} {s : Places root settings} {slug : String}

theorem not_isSpecPlace_path (part : Part) : ¬IsSpecPlace (s.path part slug).place := by
  rw [Places.place_path]
  apply not_isSpecPlace
  rw [Part.getLast?_file]
  cases part <;> decide

variable {R : Op → Prop}

theorem asks_isPlanFile {p : Path} (h : R (.read p)) : (isPlanFile p).Asks R fun _ => True := by
  have hread : (readJson p).Asks R fun _ => True := by
    have htext : (readText p).Asks R fun _ => True :=
      (Asks.ask h).bind fun r _ => (Asks.ofReply r).bind fun bytes _ => .ofOutcome _
    exact htext.bind fun text _ => .ofOutcome _
  refine hread.attempt.bind fun r _ => ?_
  split <;> trivial

/-- The files that work writes. -/
def Work.files : Work → List (Part × String)
  | .write files _ => files
  | _ => []

/-- All that work on the files of a spec may ask for. -/
theorem asks_work {work : Work} (hstat : ∀ q, R (.stat q)) (hread : ∀ q, R (.read q))
    (hfiles : ∀ f ∈ work.files, Drafts R (s.path f.1 slug, f.2))
    (hremove : ∀ part, R (.remove (s.path part slug))) :
    (work.script s slug).Asks R fun _ => True := by
  cases work with
  | write files stale =>
    refine asks_writeGroup hstat (List.forall_mem_map.2 hfiles) ?_
    exact List.forall_mem_map.2 fun part _ => hremove part
  | drop =>
    refine (asks_isPlanFile (hread _)).bind fun b _ => asks_writeGroup hstat (by simp) ?_
    refine List.forall_mem_append.2 ⟨?_, fun p hp => ?_⟩
    · exact List.forall_mem_cons.2 ⟨hremove .tests, List.forall_mem_singleton.2 (hremove .manifest)⟩
    · cases b with
      | false => cases hp
      | true =>
        rw [List.mem_singleton.1 hp]
        exact hremove .plan
  | rest => trivial

theorem sparesSpecs_work (work : Work) : (work.script s slug).SparesSpecs := by
  refine asks_work (fun _ => trivial) (fun _ => trivial) (fun f _ => ?_) not_isSpecPlace_path
  have hdraft := not_isSpecPlace_draftOf (s.path f.1 slug)
  exact ⟨fun _ _ => trivial, hdraft, hdraft, hdraft, not_isSpecPlace_path f.1⟩

end Project

/-! Reading specs again. -/

namespace Tree

variable {t u : Tree} {l m : Location} {names : List String}

theorem walk_congr
    (h : ∀ m ∈ passed l names, t.get? m = some .dir ∧ u.get? m = some .dir) :
    t.walk l names = u.walk l names := by
  induction names generalizing l with
  | nil => rfl
  | cons name names ih =>
    obtain ⟨⟨ht, hu⟩, hrest⟩ := List.forall_mem_cons.1 h
    have hlater := ih hrest
    rw [walk, walk, ht, hu]
    rw [step] at hlater
    split at hlater
    · next hup => simp only [hup, if_true, hlater]
    · next hup => simp only [hup, if_false, hlater]

theorem names_below (d : Path) (names : List String) : (d.below names).names = d.names ++ names := by
  simp [Path.names, Path.below, Function.comp_def]

theorem Sound.place_below (hs : t.Sound) {d : Path} {e : Entry}
    (h : t.get? (d.place ++ names) = some e) : (d.below names).place = d.place ++ names := by
  rw [Path.place, names_below, follow_append]
  exact follow_of_not_mem (fun hup => hs.up_not_mem h (List.mem_append_right _ hup)) _

/-- A file is read the same where all on the way to it is the same. -/
theorem read_congr {p : Path}
    (hway : ∀ m ∈ passed [] p.names, t.get? m = some .dir ∧ u.get? m = some .dir)
    (hget : t.get? p.place = u.get? p.place) : t.read p = u.read p := by
  have hlocate : t.locate p = u.locate p := by rw [locate, locate, walk_congr hway]
  cases hl : u.locate p with
  | error cause => rw [read, read, entry_of_error hl, entry_of_error (hlocate.trans hl)]
  | ok l =>
    rw [read, read, entry_of_locate hl, entry_of_locate (hlocate.trans hl), locate_eq_place hl, hget]

/-- There are directories all the way to an entry below a directory. -/
theorem Sound.way_below (hs : t.Sound) {d : Path} (hd : t.Leads d) {e : Entry}
    (h : t.get? (d.place ++ names) = some e) :
    ∀ m ∈ passed [] (d.below names).names, t.get? m = some .dir := by
  have hup : ".." ∉ names := fun hmem => hs.up_not_mem h (List.mem_append_right _ hmem)
  rw [names_below, passed_append]
  refine List.forall_mem_append.2 ⟨fun m hm => ?_, fun m hm => ?_⟩
  · exact hd.way m (List.mem_append_left _ hm)
  · obtain ⟨above, rest, rfl, hrest, rfl⟩ := mem_passed hup hm
    rw [← List.append_assoc] at h
    exact hs.get?_of_append h hrest

/-- A file below a directory is read the same as long as specs are kept. -/
theorem KeepsSpecs.read_below (h : t.KeepsSpecs u) (hs : t.Sound) {d : Path} (hd : t.Leads d)
    {bytes : ByteArray} (hfile : t.get? (d.place ++ names) = some (.file bytes))
    (hspec : IsSpecPlace (d.place ++ names)) : u.read (d.below names) = t.read (d.below names) := by
  have hway := hs.way_below hd hfile
  apply read_congr fun m hm => ⟨h.dirs m (hway m hm), hway m hm⟩
  rw [hs.place_below hfile, hfile, ← file?_eq_some, h.specs _ hspec, file?_eq_some, hfile]

end Tree
end Acceptance

import Acceptance.Proofs.SpecWork
/-!
What work on the files of specs does in tidy directories. Each file there is known by its mark, so
the work sets just the files that it is meant for, and the directories stay tidy.
-/
namespace Acceptance.Project

open Script

/-! Looking at files. -/

/-- The text in a file, from what reading the file gives. -/
def textIn (reply : Except FileError ByteArray) : Outcome String :=
  reply.mapError .ofFile >>= textOf

/-- Are these the bytes of a plan? There is no answer if they are nested too deep. -/
def planFileOf (reply : Except FileError ByteArray) : Outcome Bool :=
  match textIn reply >>= fun text => (Json.read text).mapError .ofJson with
  | .ok v => .ok (isPlanValue v)
  | .error (.misfit (.tooDeep inMap)) => .error (.misfit (.tooDeep inMap))
  | .error _ => .ok false

/-- Are these the bytes of a generated module? There is no answer about what cannot be a file. -/
def testFileOf (reply : Except FileError ByteArray) : Outcome Bool :=
  match textIn reply with
  | .ok text => .ok (Text.occursIn Emission.generatedMarker text)
  | .error (.path flaw) => .error (.path flaw)
  | .error _ => .ok false

theorem readText_eq (p : Path) :
    readText p = ask (.read p) >>= fun reply => ofOutcome (textIn reply) := by
  refine congrArg (_ >>= ·) (funext fun reply => ?_)
  cases reply <;> rfl

theorem isGenerated_eq (p : Path) :
    isGenerated p = ask (.read p) >>= fun reply => ofOutcome (testFileOf reply) := by
  rw [isGenerated, readText_eq, attempt_ask_bind, bind_assoc]
  refine congrArg (_ >>= ·) (funext fun reply => ?_)
  rw [done_bind, testFileOf]
  cases textIn reply with
  | ok text => rfl
  | error f => cases f <;> rfl

theorem readJson_eq (p : Path) : readJson p = ask (.read p) >>= fun reply =>
    ofOutcome (textIn reply >>= fun text => (Json.read text).mapError .ofJson) := by
  simp only [readJson, readText_eq, ofOutcome_bind, bind_assoc]

theorem isPlanFile_eq (p : Path) :
    isPlanFile p = ask (.read p) >>= fun reply => ofOutcome (planFileOf reply) := by
  rw [isPlanFile, readJson_eq, attempt_ask_bind, bind_assoc]
  refine congrArg (_ >>= ·) (funext fun reply => ?_)
  rw [done_bind, planFileOf]
  cases textIn reply >>= fun text => (Json.read text).mapError Fault.ofJson with
  | ok v => rfl
  | error f =>
    cases f with
    | misfit m => cases m <;> rfl
    | _ => rfl

theorem does_ask_read {α : Type} {p : Path} {k : Except FileError ByteArray → Outcome α}
    {w w' : World} {a : α} : (ask (.read p) >>= fun reply => ofOutcome (k reply)).Does w a w' ↔
      k (replyOf w p) = .ok a ∧ w = w' := by
  rw [Does, run_bind_of_does (does_ask.2 (perform_read w p))]
  exact does_ofOutcome

variable {bytes : ByteArray} {text name : String} {o : Outcome Plan}

section Looking

variable {p : Path} {w w' : World} {b : Bool}

theorem does_isPlanFile :
    (isPlanFile p).Does w b w' ↔ planFileOf (replyOf w p) = .ok b ∧ w = w' := by
  rw [isPlanFile_eq]
  exact does_ask_read

theorem does_isGenerated :
    (isGenerated p).Does w b w' ↔ testFileOf (replyOf w p) = .ok b ∧ w = w' := by
  rw [isGenerated_eq]
  exact does_ask_read

theorem planFileOf_of_read {v : Value} (htext : textOf bytes = .ok text)
    (hread : Json.read text = .ok v) : planFileOf (.ok bytes) = .ok (isPlanValue v) := by
  have hvalue :
      (textIn (.ok bytes) >>= fun text => (Json.read text).mapError Fault.ofJson) = .ok v := by
    refine bind_eq_ok.2 ⟨text, htext, ?_⟩
    rw [hread]
    rfl
  rw [planFileOf, hvalue]

theorem planFileOf_of_isPlanBytes (h : IsPlanBytes bytes) : planFileOf (.ok bytes) = .ok true := by
  obtain ⟨text, v, htext, hread, hplan⟩ := h
  rw [planFileOf_of_read htext hread, hplan]

theorem testFileOf_of_isTestBytes (h : IsTestBytes bytes) : testFileOf (.ok bytes) = .ok true := by
  obtain ⟨text, htext, hmark⟩ := h
  have htext' : textIn (.ok bytes) = .ok text := htext
  rw [testFileOf, htext']
  exact congrArg Except.ok hmark

/-- What cannot be read is no plan. -/
theorem planFileOf_of_error (e : FileError) : planFileOf (.error e) = .ok false := by
  cases e <;> rfl

theorem testFileOf_of_error (e : OsError) : testFileOf (.error (.os e)) = .ok false := rfl

end Looking

namespace Site

open Places

variable {root : Path} {settings : Settings} {s : Site root settings} {part : Part} {slug : String}
  {w w' : World}

/-- A file of a spec is read by its path. -/
theorem Tidy.replyOf_eq (h : s.Tidy w.tree)
    (hfile : w.tree.file? (s.path part slug).place = some bytes) :
    replyOf w (s.path part slug) = .ok bytes := by
  have howns := h.owns hfile
  have hlocate : w.tree.locate (s.path part slug) = .ok (s.path part slug).place := by
    refine (Tree.locate_of_proper proper_path).2 ⟨rfl, ?_, howns.usable.size, howns.usable.name⟩
    rw [parent_path]
    exact howns.leads
  have hread := Tree.read_eq_ok.2 ⟨_, hlocate, hfile⟩
  unfold replyOf World.look
  rw [howns.usable.flaw, hread]
  rfl

/-- A plan that is there is known. -/
theorem Tidy.file?_of_planFileOf (h : s.Tidy w.tree)
    (hlook : planFileOf (replyOf w (s.path .plan slug)) = .ok false) :
    w.tree.file? (s.path .plan slug).place = none := by
  cases hfile : w.tree.file? (s.path .plan slug).place with
  | none => rfl
  | some bytes =>
    rw [h.replyOf_eq hfile, planFileOf_of_isPlanBytes (h.owns hfile).bears] at hlook
    cases hlook

theorem Tidy.file?_of_testFileOf (h : s.Tidy w.tree)
    (hlook : testFileOf (replyOf w (s.path .tests slug)) = .ok false) :
    w.tree.file? (s.path .tests slug).place = none := by
  cases hfile : w.tree.file? (s.path .tests slug).place with
  | none => rfl
  | some bytes =>
    rw [h.replyOf_eq hfile, testFileOf_of_isTestBytes (h.owns hfile).bears] at hlook
    cases hlook

end Site

/-! Work. -/

/-- What work sets. -/
def Work.changes : Work → List (Part × Option ByteArray)
  | .write files stale =>
    files.map (fun f => (f.1, some (Text.encode f.2))) ++
      (stale.filter fun part => !files.any (·.1 = part)).map fun part => (part, none)
  | .drop => [(.tests, none), (.manifest, none), (.plan, none)]
  | .rest => []

/-- All files that are written bear their marks, and no manifest is without its module. -/
structure WellMarked (files : List (Part × String)) (stale : List Part) : Prop where
  parts : (files.map (·.1)).Nodup
  bears : ∀ f ∈ files, Site.Bears f.1 (Text.encode f.2)
  stale : .tests ∈ stale → .manifest ∈ stale
  beside : ∀ text, (.manifest, text) ∈ files → ∃ code, (.tests, code) ∈ files

def Work.Marked : Work → Prop
  | .write files stale => WellMarked files stale
  | _ => True

theorem wellMarked_plan (h : IsPlanBytes (Text.encode text)) : WellMarked [(.plan, text)] [] :=
  ⟨by simp, List.forall_mem_singleton.2 h, by simp, by simp⟩

theorem marked_of_workOf {r : Registry} {emit : Bool} {slug : String}
    {made : FileReport String Nat × Work} (h : workOf r emit slug name o = .ok made) :
    made.2.Marked := by
  cases o with
  | error f =>
    cases f with
    | problem p =>
      cases h
      cases emit <;> trivial
    | _ => cases h
  | ok plan =>
    obtain ⟨d, text, -, htext, hmade⟩ := workOf_eq_ok.1 h
    have hplan := isPlanBytes_write htext
    cases emit with
    | false =>
      rw [show made = _ from hmade]
      exact wellMarked_plan hplan
    | true =>
      obtain ⟨compiled, hcompiled, rfl⟩ := hmade
      rcases emitted_cases hcompiled with rfl | ⟨m, hm, rfl⟩
      · exact ⟨by simp [testParts], List.forall_mem_singleton.2 hplan, by simp, by simp [testParts]⟩
      · refine ⟨by simp [testParts], ?_, by simp, by simp [testParts]⟩
        refine List.forall_mem_cons.2 ⟨hplan, List.forall_mem_cons.2 ⟨isTestBytes_code hm, ?_⟩⟩
        exact List.forall_mem_singleton.2 trivial

theorem marked_of_parseWorkOf {slug : String} {made : Parsed × Work}
    (h : parseWorkOf slug name o = .ok made) : made.2.Marked := by
  cases o with
  | error f =>
    cases f with
    | problem p =>
      cases h
      trivial
    | _ => cases h
  | ok plan =>
    obtain ⟨text, htext, hmade⟩ := bind_eq_ok.1 h
    cases hmade
    exact wellMarked_plan (isPlanBytes_write (orFault_eq_ok.1 htext))

namespace Site

open Places

variable {root : Path} {settings : Settings} {s : Site root settings} {slug : String} {w w' : World}

theorem orderly_work {work : Work} (h : work.Marked) : s.Orderly (s.ofSlug slug work.changes) := by
  cases work with
  | write files stale =>
    have hwritten : ∀ part bytes, (part, some bytes) ∈ (Work.write files stale).changes →
        ∃ text, (part, text) ∈ files ∧ bytes = Text.encode text := by
      intro part bytes hmem
      rcases List.mem_append.1 hmem with hmem | hmem
      · obtain ⟨f, hf, heq⟩ := List.mem_map.1 hmem
        cases heq
        exact ⟨f.2, hf, rfl⟩
      · obtain ⟨_, -, heq⟩ := List.mem_map.1 hmem
        cases heq
    have hstale : ∀ part, (part, none) ∈ (Work.write files stale).changes ↔
        part ∈ stale ∧ ∀ text, (part, text) ∉ files := by
      intro part
      simp only [Work.changes, List.mem_append, List.mem_map, Prod.mk.injEq, reduceCtorEq, and_false,
        exists_false, false_or, and_true, exists_eq_right, List.mem_filter, Bool.not_eq_true',
        List.any_eq_false, decide_eq_true_eq]
      refine and_congr_right fun _ =>
        ⟨fun hnot text htext => hnot _ htext rfl, fun hnot f hf heq => ?_⟩
      exact hnot f.2 (heq ▸ hf)
    refine orderly_ofSlug ?_ ?_ ?_
    · rintro ⟨part, _⟩ hf bytes rfl
      obtain ⟨text, htext, rfl⟩ := hwritten part bytes hf
      exact h.bears _ htext
    · intro htests
      obtain ⟨hmem, hnot⟩ := (hstale _).1 htests
      refine (hstale _).2 ⟨h.stale hmem, fun text htext => ?_⟩
      obtain ⟨code, hcode⟩ := h.beside text htext
      exact hnot code hcode
    · intro bytes hmem
      obtain ⟨text, htext, -⟩ := hwritten _ bytes hmem
      obtain ⟨code, hcode⟩ := h.beside text htext
      exact ⟨Text.encode code, List.mem_append_left _ (List.mem_map.2 ⟨_, hcode, rfl⟩)⟩
  | drop => apply orderly_ofSlug <;> simp [Work.changes]
  | rest => apply orderly_ofSlug <;> simp [Work.changes]

theorem place_eq_iff {part part' : Part} {slug' : String} :
    (s.path part slug).place = (s.path part' slug').place ↔ part = part' ∧ slug = slug' :=
  ⟨path_injective, fun h => by rw [h.1, h.2]⟩

theorem path_eq_iff {part part' : Part} : s.path part slug = s.path part' slug ↔ part = part' :=
  ⟨fun h => (path_injective (congrArg Path.place h)).1, fun h => h ▸ rfl⟩

theorem ofSlug_changes (files : List (Part × String)) (stale : List Part) :
    s.ofSlug slug (Work.write files stale).changes =
      groupChanges (files.map fun f => (s.path f.1 slug, f.2)) (stale.map (s.path · slug)) := by
  have hfilter : ((fun p => !(files.map fun f => (s.path f.1 slug, f.2)).any (·.1 = p)) ∘
      (s.path · slug)) = fun part => !files.any (·.1 = part) := by
    funext part
    simp only [Function.comp_apply, List.any_map, Function.comp_def, path_eq_iff]
  rw [ofSlug, Work.changes, groupChanges, List.filter_map, hfilter]
  simp only [List.map_append, List.map_map]
  rfl

theorem Tidy.sets_write (h : s.Tidy w.tree) (files : List (Part × String)) (stale : List Part)
    (hparts : (files.map (·.1)).Nodup)
    (hdoes : ((Work.write files stale).script s.toPlaces slug).Does w () w') :
    w.tree.Sets w'.tree (s.ofSlug slug (Work.write files stale).changes) := by
  rw [ofSlug_changes]
  exact sets_writeGroup (h.groupFits hparts stale) hdoes

/-- Work on a spec in tidy directories sets its files. -/
theorem Tidy.sets_work (h : s.Tidy w.tree) {work : Work} (hmarked : work.Marked)
    (hdoes : (work.script s.toPlaces slug).Does w () w') :
    w.tree.Sets w'.tree (s.ofSlug slug work.changes) := by
  cases work with
  | write files stale => exact h.sets_write files stale hmarked.parts hdoes
  | rest =>
    obtain ⟨-, rfl⟩ := does_pure.1 hdoes
    exact .refl _
  | drop =>
    obtain ⟨b, w₁, hplan, hgroup⟩ := does_bind.1 hdoes
    obtain ⟨hb, rfl⟩ := does_isPlanFile.1 hplan
    cases b with
    | true =>
      exact h.sets_write [] [.tests, .manifest, .plan] List.nodup_nil hgroup
    | false =>
      have hnone := h.file?_of_planFileOf hb
      have hset := h.sets_write [] [.tests, .manifest] List.nodup_nil hgroup
      have hplan : w'.tree.Sets w'.tree [(s.path .plan slug, none)] := by
        refine .of_none (List.forall_mem_singleton.2 ⟨rfl, ?_⟩)
        rw [hset.kept, hnone]
        simp [ofSlug, Work.changes, place_eq_iff]
      exact hset.append hplan (by simp [ofSlug, Work.changes])

theorem Tidy.work (h : s.Tidy w.tree) {work : Work} (hmarked : work.Marked)
    (hdoes : (work.script s.toPlaces slug).Does w () w') : s.Tidy w'.tree :=
  h.sets (h.sets_work hmarked hdoes) (orderly_work hmarked)

end Site

end Acceptance.Project

import Acceptance.Proofs.FileFaults
import Acceptance.Proofs.FoundSpecs
import Acceptance.Proofs.ReadyScenarios
import Acceptance.Proofs.Rendering
import Acceptance.Proofs.ShortNumbers
/-!
Whatever is wrong with a spec stays in its report, as long as its numbers are short. A project is
compiled to the end unless there is a fault of its files, and each spec that owns its name has the
report that it has alone. One integer that is too long, on the other hand, stops everything.
-/
namespace Acceptance

open Script

variable {text : String} {n : Nat}

namespace Script

variable {α β : Type} {g : α → Script β} {as : List α} {w w' : World} {I : World → Prop}

/-- The script gives the result, unless it stops for a reason in its run. -/
def Gives (s : Script α) (w : World) (a : α) : Prop :=
  ∃ w', s.Does w a w' ∨ ∃ f, s.run w = (.error f, w') ∧ s.Meets f w

theorem gives_bind {s : Script α} {k : α → Script β} {a : α} {b : β} (hs : s.Does w a w')
    (h : (k a).Gives w' b) : (s >>= k).Gives w b := by
  obtain ⟨w₁, hdoes | ⟨f, hrun, hmeets⟩⟩ := h
  · exact ⟨w₁, .inl (does_bind.2 ⟨a, w', hs, hdoes⟩)⟩
  · exact ⟨w₁, .inr ⟨f, (run_bind_of_does hs).trans hrun, meets_bind_right hs hmeets⟩⟩

/-- Each result of a list of steps comes from a world with the invariant. -/
theorem forall₂_of_mapM {bs : List β} (hw : I w) (hI : ∀ a ∈ as, ∀ v, I v → I ((g a).run v).2)
    (h : (as.mapM g).Does w bs w') :
    List.Forall₂ (fun a b => ∃ v v', I v ∧ (g a).Does v b v') as bs := by
  induction as generalizing w bs with
  | nil =>
    obtain ⟨rfl, -⟩ := does_mapM_nil.1 h
    exact .nil
  | cons a as ih =>
    obtain ⟨ha, has⟩ := List.forall_mem_cons.1 hI
    obtain ⟨b, rest, w₁, hb, hrest, rfl⟩ := does_mapM_cons.1 h
    have hw₁ : I w₁ := by
      have hkept := ha w hw
      rwa [show (g a).run w = (.ok b, w₁) from hb] at hkept
    exact .cons ⟨w, w₁, hw, hb⟩ (ih hw₁ has hrest)

variable {rs : List (Except Fault β)}

theorem forall₂_of_attempts {bs : List β}
    (h : List.Forall₂ (fun a r => ∃ v v', I v ∧ (g a).attempt.Does v r v') as rs)
    (hrs : rs.mapM id = .ok bs) :
    List.Forall₂ (fun a b => ∃ v v', I v ∧ (g a).Does v b v') as bs := by
  have hbs := mapM_eq_ok.1 hrs
  clear hrs
  induction h generalizing bs with
  | nil =>
    cases hbs
    exact .nil
  | cons hr _ ih =>
    cases hbs with
    | cons hb hbs =>
      obtain ⟨v, v', hv, hr⟩ := hr
      cases hb
      exact .cons ⟨v, v', hv, does_attempt.1 hr⟩ (ih hbs)

theorem StopsFor.attempt {Q : Fault → Prop} (s : Script α) : s.attempt.StopsFor Q w := by
  intro f w' hrun
  rw [run_attempt] at hrun
  cases hrun

/-- A fault among attempts has its reason in the run of them all. -/
theorem meets_of_attempts (hw : I w)
    (hg : ∀ a ∈ as, ∀ v, I v → (g a).StopsFor (fun _ => False) v ∧ I ((g a).run v).2)
    (h : (as.mapM fun a => (g a).attempt).Does w rs w') {f : Fault} (hf : .error f ∈ rs) :
    (as.mapM fun a => (g a).attempt).Meets f w := by
  induction as generalizing w rs with
  | nil =>
    obtain ⟨rfl, -⟩ := does_mapM_nil.1 h
    cases hf
  | cons a as ih =>
    obtain ⟨ha, has⟩ := List.forall_mem_cons.1 hg
    obtain ⟨r, rest, w₁, hr, hrest, rfl⟩ := does_mapM_cons.1 h
    have hrun := does_attempt.1 hr
    rw [List.mapM_cons]
    rcases List.mem_cons.1 hf with rfl | hf
    · exact meets_bind_left _ (meets_attempt ((ha w hw).1.meets hrun))
    · have hw₁ : I w₁ := by
        have hkept := (ha w hw).2
        rwa [hrun] at hkept
      exact meets_bind_right hr (meets_bind_left _ (ih hw₁ has hrest hf))

end Script

variable {report : Report String Nat} {cs : List Char}

namespace Project

section Several

variable {each : Path → Script (FileReport String Nat)} {paths : List Path} {w w' : World}
  {I : World → Prop} {Q : Fault → Prop}

theorem run_attempt_snd {α : Type} (s : Script α) (w : World) : (s.attempt.run w).2 = (s.run w).2 := by
  rw [run_attempt]

theorem stopsFor_sideBySide (hw : I w)
    (heach : ∀ p ∈ paths, ∀ v, I v → (each p).StopsFor (fun _ => False) v ∧ I ((each p).run v).2) :
    (sideBySide each paths).StopsFor Q w := by
  have hnever : (paths.mapM fun p => (each p).attempt).StopsFor (fun _ => False) w := by
    refine .mapM hw fun p hp v hv => ⟨.attempt _, ?_⟩
    rw [run_attempt_snd]
    exact (heach p hp v hv).2
  intro f w' hrun
  right
  unfold sideBySide at hrun ⊢
  rw [run_bind] at hrun
  cases hruns : (paths.mapM fun p => (each p).attempt).run w with
  | mk r w₁ =>
    rw [hruns] at hrun
    cases r with
    | error g =>
      cases hrun
      exact meets_bind_left _ (hnever.meets hruns)
    | ok rs =>
      change (ofOutcome (rs.mapM id)).run w₁ = _ at hrun
      cases hall : rs.mapM id with
      | ok files =>
        rw [hall] at hrun
        cases hrun
      | error g =>
        rw [hall] at hrun
        cases hrun
        obtain ⟨r, hr, herror⟩ := exists_error_of_mapM hall
        exact meets_bind_left _ (meets_of_attempts hw heach hruns (herror ▸ hr))

theorem stopsFor_several (hw : I w)
    (heach : ∀ p ∈ paths, ∀ v, I v → (each p).StopsFor (fun _ => False) v ∧ I ((each p).run v).2)
    (together : Bool) : (several together each paths).StopsFor Q w := by
  unfold several
  split
  · exact stopsFor_sideBySide hw heach
  · refine .mapM hw fun p hp v hv => ⟨?_, (heach p hp v hv).2⟩
    exact (heach p hp v hv).1.mono fun _ hf => hf.elim

theorem forall₂_of_several (hw : I w) (heach : ∀ p ∈ paths, ∀ v, I v → I ((each p).run v).2)
    {together : Bool} {files : List (FileReport String Nat)}
    (h : (several together each paths).Does w files w') :
    List.Forall₂ (fun p file => ∃ v v', I v ∧ (each p).Does v file v') paths files := by
  unfold several at h
  split at h
  · obtain ⟨rs, w₁, hrs, h⟩ := does_bind.1 h
    obtain ⟨hall, -⟩ := does_ofOutcome.1 h
    have hattempts := forall₂_of_mapM hw (fun p hp v hv => by
      rw [run_attempt_snd]
      exact heach p hp v hv) hrs
    exact forall₂_of_attempts hattempts hall
  · exact forall₂_of_mapM hw heach h

end Several

/-! One spec. -/

/-- All files that could be specs hold moderate texts, or none. -/
def SpecsModerate (t : Tree) : Prop :=
  ∀ l bytes text, IsSpecPlace l → t.file? l = some bytes →
    textOf (Text.withoutMark bytes) = .ok text → Spec.Moderate text

variable {reply : Except FileError ByteArray}

section Reading

variable {w v : World} {dir p : Path}

theorem moderate_of_replyOf (hw : SpecsModerate w.tree) (hs : w.tree.Sound)
    (hp : Found w.tree dir p) {bytes : ByteArray} (hreply : replyOf w p = .ok bytes)
    (htext : textOf (Text.withoutMark bytes) = .ok text) : Spec.Moderate text := by
  obtain ⟨names, bytes', rfl, hdir, hfile, hspec⟩ := hp
  obtain ⟨l, hl, hbytes⟩ := Tree.read_eq_ok.1 (replyOf_eq_ok hreply)
  refine hw l bytes text ?_ hbytes htext
  rwa [Tree.locate_eq_place hl, hs.place_below hfile]

/-- A moderate spec has a plan with short numbers or a problem of its own, unless its file has no
path. -/
theorem planOf_cases {name : String}
    (h : ∀ bytes text, reply = .ok bytes → textOf (Text.withoutMark bytes) = .ok text →
      Spec.Moderate text) : (∃ plan : Plan, planOf name reply = .ok plan ∧ plan.Moderate) ∨
      (∃ p, planOf name reply = .error (.problem p)) ∨
        ∃ flaw, reply = .error (.path flaw) ∧ planOf name reply = .error (.path flaw) := by
  cases reply with
  | error e =>
    cases e with
    | os e => exact .inr (.inl ⟨_, rfl⟩)
    | path flaw => exact .inr (.inr ⟨flaw, rfl, rfl⟩)
  | ok bytes =>
    have hplan : planOf name (.ok bytes) = specOfBytes name bytes >>= fun s =>
      (Plan.ofSpec s).mapError fun e => .problem (.plan e) := rfl
    rw [hplan, specOfBytes]
    cases htext : textOf (Text.withoutMark bytes) with
    | error f =>
      obtain ⟨e, rfl⟩ := undecodable_of_textOf htext
      exact .inr (.inl ⟨_, rfl⟩)
    | ok text =>
      have hmoderate := h bytes text rfl htext
      dsimp only
      cases hparse : Spec.parse text (some name) with
      | error f =>
        obtain ⟨p, rfl⟩ := Spec.problem_of_parse hmoderate hparse
        exact .inr (.inl ⟨p, rfl⟩)
      | ok spec =>
        cases hof : Plan.ofSpec spec with
        | error e =>
          refine .inr (.inl ⟨.plan e, bind_eq_error.2 (.inr ⟨spec, rfl, ?_⟩)⟩)
          rw [hof]
          rfl
        | ok plan =>
          refine .inl ⟨plan, bind_eq_ok.2 ⟨spec, rfl, ?_⟩, ?_⟩
          · rw [hof]
            rfl
          · exact Plan.moderate_of_ofSpec (hmoderate.scenario hparse) hof

end Reading

section OneSpec

variable {root path : Path} {settings : Settings} {s : Places root settings} {r : Registry}
  {emit : Bool} {slug : String} {w v : World}

theorem exists_ofValue_of_registryOf (h : registryOf path reply = .ok r) :
    ∃ v source, Registry.ofValue v source = .ok r := by
  cases reply with
  | error e => cases e <;> cases h
  | ok bytes =>
    obtain ⟨text, -, h⟩ := bind_eq_ok.1 h
    unfold Registry.ofYaml at h
    split at h
    · exact ⟨_, _, h⟩
    · cases h
    · cases h

/-- Nothing goes wrong between the plan of a spec and the work on its files. -/
theorem exists_workOf {v : Value} {source : String} (hr : Registry.ofValue v source = .ok r)
    (hshown : r.Shown) {plan : Plan} (hplan : plan.Moderate) (name : String) :
    ∃ made, workOf r emit slug name (.ok plan) = .ok made := by
  obtain ⟨d, hd, hmoderate⟩ := hplan.exists_resolve hshown
  obtain ⟨text, htext⟩ := hmoderate.exists_write
  obtain ⟨m, hm, -⟩ := exists_testModule_ready r (Plan.complete_of_resolve hr hd) slug
  have hemitted : ∃ compiled, emitted r slug d = .ok compiled := by
    unfold emitted
    dsimp only
    split
    · exact ⟨_, rfl⟩
    · rw [hm]
      exact ⟨_, rfl⟩
  obtain ⟨compiled, hcompiled⟩ := hemitted
  cases emit with
  | false => exact ⟨_, workOf_eq_ok.2 ⟨d, text, hd, htext, rfl⟩⟩
  | true => exact ⟨_, workOf_eq_ok.2 ⟨d, text, hd, htext, compiled, hcompiled, rfl⟩⟩

theorem stopsFor_work {work : Work} {Q : Fault → Prop} : (work.script s slug).StopsFor Q w := by
  cases work with
  | write files stale =>
    refine stopsFor_writeGroup (List.forall_mem_map.2 fun f _ => ?_)
    exact Places.proper_path.parts
  | drop => exact stopsFor_isPlanFile.bind fun b w₁ _ => stopsFor_writeGroup (by simp)
  | rest => exact .done _

/-- Compiling a spec with short numbers stops for faults of files only. -/
theorem stopsFor_compileSpec (hslug : specSlug s.specs path = .ok slug)
    (hr : ∃ v source, Registry.ofValue v source = .ok r) (hshown : r.Shown)
    (hmoderate : ∀ bytes text, replyOf w path = .ok bytes →
      textOf (Text.withoutMark bytes) = .ok text → Spec.Moderate text) {Q : Fault → Prop} :
    (compileSpec root settings r emit path).StopsFor Q w := by
  obtain ⟨v, source, hr⟩ := hr
  rw [compileSpec_eq s hslug]
  refine .ask_bind fun reply w₁ hreply => ?_
  rw [perform_read] at hreply
  cases hreply
  refine StopsFor.bind (.ofOutcome fun f hf => .inr ?_) fun made w₁ _ => ?_
  · rcases planOf_cases hmoderate with ⟨plan, hplan, hp⟩ | ⟨p, hplan⟩ | ⟨flaw, hflaw, hplan⟩
    · obtain ⟨made, hmade⟩ := exists_workOf hr hshown hp _
      rw [hplan, hmade] at hf
      cases hf
    · rw [hplan] at hf
      cases hf
    · rw [hplan] at hf
      cases hf
      rw [hflaw]
      exact .refused (e := .path flaw) rfl
  · exact stopsFor_work.bind fun _ w₂ _ => .done _

theorem sparesSpecs_compileSpec (hslug : specSlug s.specs path = .ok slug) :
    (compileSpec root settings r emit path).SparesSpecs := by
  rw [compileSpec_eq s hslug]
  refine (Asks.ask trivial).bind fun reply _ => (Asks.ofOutcome _).bind fun made _ => ?_
  exact (sparesSpecs_work made.2).bind fun _ _ => trivial

variable {file : FileReport String Nat}

/-- The report of a spec depends only on what is read from it. -/
theorem exists_workOf_of_does (hslug : specSlug s.specs path = .ok slug) {v' : World}
    (h : (compileSpec root settings r emit path).Does v file v') :
    ∃ work, workOf r emit slug (specName root path) (planOf (specName root path) (replyOf v path)) =
      .ok (file, work) := by
  rw [compileSpec_eq s hslug] at h
  obtain ⟨reply, v₁, hread, h⟩ := does_bind.1 h
  cases (perform_read v path).symm.trans (does_ask.1 hread)
  obtain ⟨made, v₂, hmade, h⟩ := does_bind.1 h
  obtain ⟨hwork, rfl⟩ := does_ofOutcome.1 hmade
  obtain ⟨v₃, -, h⟩ := does_seq.1 h
  obtain ⟨rfl, -⟩ := does_pure.1 h
  exact ⟨made.2, hwork⟩

theorem gives_of_workOf (hslug : specSlug s.specs path = .ok slug) {work : Work}
    (h : workOf r emit slug (specName root path) (planOf (specName root path) (replyOf w path)) =
      .ok (file, work)) : (compileSpec root settings r emit path).Gives w file := by
  rw [compileSpec_eq s hslug]
  refine gives_bind (does_ask.2 (perform_read w path)) (gives_bind (does_ofOutcome.2 ⟨h, rfl⟩) ?_)
  cases hrun : (work.script s slug).run w with
  | mk result w' =>
    refine ⟨w', ?_⟩
    cases result with
    | ok _ => exact .inl (does_seq.2 ⟨w', hrun, does_pure.2 ⟨rfl, rfl⟩⟩)
    | error f =>
      refine .inr ⟨f, ?_, meets_bind_left _ (stopsFor_work.meets hrun)⟩
      rw [run_bind, hrun]

end OneSpec

/-! All specs. -/

section Finding

variable {dir : Path} {w w' : World} {paths : List Path}

theorem stopsFor_specFiles {Q : Fault → Prop} : (specFiles dir).StopsFor Q w := by
  refine stopsFor_isDir.bind fun b w₁ _ => ?_
  split
  · exact .ask_bind fun found w₂ _ => .done _
  · exact .done _

end Finding

section AllSpecs

variable {root : Path} {settings : Settings} {s : Places root settings} {together : Bool}
  {r : Registry} {emit : Bool} {w : World}

theorem keepsSpecs_compileSpec {v : World} {path : Path} {slug : String}
    (hslug : specSlug s.specs path = .ok slug) (hv : w.tree.KeepsSpecs v.tree) :
    w.tree.KeepsSpecs ((compileSpec root settings r emit path).run v).2.tree :=
  hv.trans ((sparesSpecs_compileSpec hslug).keepsSpecs v)

/-- All specs of a project are compiled unless there is a fault of files. -/
theorem stopsFor_compileAll (s : Places root settings)
    (hworkers : severalWorkers settings = .ok together) (hw : w.tree.Sound)
    (hr : ∃ v source, Registry.ofValue v source = .ok r) (hshown : r.Shown)
    (hmoderate : SpecsModerate w.tree) : (compileAll root settings r emit).StopsFor (fun _ => False) w := by
  rw [compileAll_eq s hworkers]
  refine stopsFor_specFiles.bind fun paths w₁ hpaths => ?_
  obtain ⟨rfl, hfound⟩ := does_specFiles hw hpaths
  obtain ⟨specs, hspecs⟩ : ∃ specs, claimants s.specs paths = .ok specs := by
    refine mapM_isOk.2 fun p hp => ?_
    obtain ⟨slug, hslug⟩ := (hfound p hp).exists_slug
    exact ⟨⟨p, slug⟩, bind_eq_ok.2 ⟨slug, hslug, rfl⟩⟩
  rw [hspecs, ofFit_ok, done_bind]
  have howners := found_of_mem_owners hw hpaths hspecs
  refine StopsFor.bind (stopsFor_several (I := fun v => w₁.tree.KeepsSpecs v.tree) (.refl _) ?_ _) fun compiled w₁ _ => ?_
  · refine List.forall_mem_map.2 fun c hc v hv => ⟨?_, keepsSpecs_compileSpec (howners c hc).2 hv⟩
    refine stopsFor_compileSpec (howners c hc).2 hr hshown fun bytes text hbytes => ?_
    rw [replyOf_of_keepsSpecs hv hw (howners c hc).1] at hbytes
    exact moderate_of_replyOf hmoderate hw (howners c hc).1 hbytes
  · dsimp only
    split
    · exact stopsFor_pruneTests.bind fun pruned w₂ _ => stopsFor_prunePlans.bind fun _ w₃ _ => .done _
    · exact .done _

/-- Each spec that owns its name is worked on as it is at the start. -/
theorem forall₂_workOf (s : Places root settings)
    (hworkers : severalWorkers settings = .ok together) (hw : w.tree.Sound) {w' : World}
    (h : (compileAll root settings r emit).Does w report w') :
    ∃ paths specs compiled, (specFiles s.specs).Does w paths w ∧ claimants s.specs paths = .ok specs ∧
      report.files = compiled ++ specs.filterMap (collision? root (owners [] specs)) ∧
      report.errors = [] ∧
      List.Forall₂ (fun c file => ∃ work, workOf r emit c.slug (specName root c.path)
        (planOf (specName root c.path) (replyOf w c.path)) = .ok (file, work)) (owners [] specs) compiled := by
  obtain ⟨paths, w₁, specs, compiled, w₂, hpaths, hspecs, hcompiled, hend⟩ :=
    (does_compileAll s hworkers).1 h
  obtain ⟨rfl, -⟩ := does_specFiles hw hpaths
  have howners := found_of_mem_owners hw hpaths hspecs
  have heach := forall₂_of_several (I := fun v => w₁.tree.KeepsSpecs v.tree) (.refl _)
    (List.forall_mem_map.2 fun c hc v hv => keepsSpecs_compileSpec (howners c hc).2 hv) hcompiled
  rw [List.forall₂_map_left_iff] at heach
  refine ⟨paths, specs, compiled, hpaths, hspecs, hend.files.1, hend.files.2, ?_⟩
  refine List.forall₂_iff_get.2 ⟨heach.length_eq, fun i hi hi' => ?_⟩
  obtain ⟨hfound, hslug⟩ := howners _ (List.get_mem (owners [] specs) ⟨i, hi⟩)
  obtain ⟨v, v', hv, hdoes⟩ := heach.get hi hi'
  rw [← replyOf_of_keepsSpecs hv hw hfound]
  exact exists_workOf_of_does hslug hdoes

theorem meets_compile {f : Fault} (hr : registryOf s.registry (replyOf w s.registry) = .ok r)
    (h : (compileAll root settings r emit).Meets f w) : (compile root settings emit).Meets f w := by
  rw [compile_eq s]
  refine meets_bind_right (does_ask.2 (perform_read w s.registry)) ?_
  rwa [hr]

end AllSpecs

end Project

/-! A spec with an integer that is too long. -/

namespace Text

theorem loop_bytes (bytes : ByteArray) (i : Nat) (r : List UInt8) :
    ByteArray.toList.loop bytes i r = r.reverse ++ bytes.data.toList.drop i := by
  have hsize : bytes.size = bytes.data.toList.length := rfl
  induction i, r using ByteArray.toList.loop.induct bytes with
  | case1 i r hi ih =>
    have hget : bytes.get! i = bytes.data.toList[i] := getElem!_pos bytes.data i hi
    rw [ByteArray.toList.loop, if_pos hi, ih, List.reverse_cons, List.append_assoc, hget,
      List.singleton_append, List.getElem_cons_drop]
  | case2 i r hi =>
    rw [ByteArray.toList.loop, if_neg hi, List.drop_of_length_le (by omega), List.append_nil]

theorem toList_bytes (bytes : ByteArray) : bytes.toList = bytes.data.toList := by
  rw [ByteArray.toList, loop_bytes]
  rfl

/-- A text that starts with a character of one byte has no mark. -/
theorem withoutMark_encode {c : Char} {b : UInt8} (hc : String.utf8EncodeChar c = [b])
    (hb : b ≠ 0xef) {s : String} (hs : s.toList = c :: cs) : withoutMark (encode s) = encode s := by
  have hlist : (encode s).toList = b :: cs.flatMap String.utf8EncodeChar := by
    rw [← String.ofList_toList (s := s), hs, toList_bytes, encode, String.toUTF8_eq_toByteArray,
      String.toByteArray_ofList]
    simp [List.utf8Encode, hc]
  have hmark : ¬mark.isPrefixOf (encode s).toList = true := by simp [hlist, mark, Ne.symm hb]
  have hshort : ¬(encode s).toList.isPrefixOf mark = true := by simp [hlist, mark, hb]
  rw [withoutMark, if_neg hmark, if_neg hshort]

end Text

namespace Spec

open Text

/-- A statement that is one integer too long. -/
def ones (n : Nat) : String := String.ofList (List.replicate n '1')

theorem items_ones (hn : n ≠ 0) :
    items .free (ones n).toList = [.number ⟨false, List.replicate n '1', none⟩] := by
  obtain ⟨n, rfl⟩ := Nat.exists_eq_succ_of_ne_zero hn
  have hdigit : isDigit '1' = true := by decide
  have htaken : Numeral.take? (List.replicate (n + 1) '1') =
      some (⟨false, List.replicate (n + 1) '1', none⟩, []) := by
    rw [List.replicate_succ, Numeral.take?, Numeral.takeUnsigned?]
    · simp [hdigit, Numeral.takeFraction]
    · simp
  have htake : takeItem? .free (List.replicate (n + 1) '1') =
      some (.number ⟨false, List.replicate (n + 1) '1', none⟩, .word, []) := by
    rw [List.replicate_succ] at htaken ⊢
    rw [takeItem?, if_neg (by decide), if_neg (by decide)]
    unfold numberItem?
    rw [htaken]
    rfl
  rw [ones, String.toList_ofList, items]
  split
  · next heq =>
    cases htake.symm.trans heq
    rw [items]
    rfl
  · next heq => cases htake.symm.trans heq

theorem extract_ones (h : Numeral.maxDigits < n) :
    extract (ones n) = .error (.integerTooLong n) := by
  have hliteral : Item.literal? (.number ⟨false, List.replicate n '1', none⟩) =
      some (.error (.integerTooLong n)) := by
    simp [Item.literal?, Numeral.literal, h]
  rw [extract, items_ones (by omega), nameItems, hliteral]
  rfl

theorem isStatement_ones (hn : n ≠ 0) : IsStatement (ones n) := by
  have hblank : isBlank '1' = false := by decide
  obtain ⟨n, rfl⟩ := Nat.exists_eq_succ_of_ne_zero hn
  have hlist : (ones (n + 1)).toList = List.replicate (n + 1) '1' := String.toList_ofList
  refine ⟨by simp [ones], ⟨?_, ?_⟩, fun c hc => ?_, ?_⟩
  · rw [hlist, trimStart, List.replicate_succ]
    simp [hblank]
  · rw [hlist, List.replicate_succ', trimEnd_append_singleton hblank]
  · rw [hlist] at hc
    rw [List.eq_of_mem_replicate hc]
    decide
  · rw [hlist, List.count_replicate]
    rfl

/-- A line of a spec whose literals are no misfit of the spec but of the program. -/
theorem parse_of_misfit {s : Step Nat} (h : IsStatement s.text) {m : Misfit}
    (hm : extract s.text = .error m) (source : Option String) :
    parse (s.render ++ "\n") source = .error (.misfit m) := by
  have hwrites := Step.writes_of_isStatement h
  have htokens : tokens (s.render ++ "\n") = .ok [⟨s.asLine, 1⟩] := by
    have hlines : lines (s.render ++ "\n").toList = [s.render.toList] := by
      rw [String.toList_append]
      exact lines_cons_of_oneLine hwrites.oneLine
    rw [tokens, hlines, tokensFrom, hwrites.read]
    rfl
  have hsteps : readScenario [⟨s.asLine, 1⟩] = .error (.misfit m) := by
    refine bind_eq_error.2 (.inl ?_)
    rw [Step.asLine, readSteps]
    simp only [Lead.kind, hm]
    rfl
  have hread : readTokens (sourceName source) [⟨s.asLine, 1⟩] = .error (.misfit m) := by
    refine bind_eq_error.2 (.inl ?_)
    change [[⟨s.asLine, 1⟩]].mapM readScenario = _
    rw [List.mapM_cons, hsteps]
    rfl
  rw [parse, htokens]
  change (readTokens (sourceName source) _).mapError _ = _
  rw [hread]
  rfl

end Spec

namespace Project

/-- A project whose registry is read is compiled to the end, unless an operation on its files is
refused. Each spec that owns its name then has the report that it has alone. -/
theorem compile_contains_failures {root : Path} {settings : Settings} (s : Places root settings)
    {together : Bool} (hworkers : severalWorkers settings = .ok together) {w : World}
    (hw : w.tree.Sound) {r : Registry} (hr : (readRegistry s.registry).Does w r w) (hshown : r.Shown)
    (hmoderate : SpecsModerate w.tree) (emit : Bool) :
    (∃ f w', (compile root settings emit).run w = (.error f, w') ∧
      (compile root settings emit).Meets f w) ∨
    ∃ report w' paths specs compiled, (compile root settings emit).Does w report w' ∧
      report.errors = [] ∧ (specFiles s.specs).Does w paths w ∧ claimants s.specs paths = .ok specs ∧
      report.files = compiled ++ specs.filterMap (collision? root (owners [] specs)) ∧
      List.Forall₂ (fun c file => (compileSpec root settings r emit c.path).Gives w file)
        (owners [] specs) compiled := by
  obtain ⟨hread, -⟩ := does_readRegistry.1 hr
  have hrun := run_compile s hread emit
  have hstops : (compileAll root settings r emit).StopsFor (fun _ => False) w :=
    stopsFor_compileAll s hworkers hw (exists_ofValue_of_registryOf hread) hshown hmoderate
  cases hall : (compileAll root settings r emit).run w with
  | mk result w' =>
    cases result with
    | error f => exact .inl ⟨f, w', hrun.trans hall, meets_compile hread (hstops.meets hall)⟩
    | ok report =>
      obtain ⟨paths, specs, compiled, hpaths, hspecs, hfiles, herrors, hall₂⟩ :=
        forall₂_workOf s hworkers hw hall
      refine .inr ⟨report, w', paths, specs, compiled, hrun.trans hall, herrors, hpaths, hspecs, hfiles, ?_⟩
      refine List.forall₂_iff_get.2 ⟨hall₂.length_eq, fun i hi hi' => ?_⟩
      obtain ⟨work, hwork⟩ := hall₂.get hi hi'
      have hslug := (found_of_mem_owners hw hpaths hspecs _ (List.get_mem (owners [] specs) ⟨i, hi⟩)).2
      exact gives_of_workOf hslug hwork

/-! A project with two specs, of which the first may be anything. -/

/-- The places of the usual settings. -/
def usual (root : Path) : Places root {} :=
  ⟨root.join (.ofText "specs"), root.join (.ofText ".gwt/ir"), root.join (.ofText ".gwt/generated"),
    root.join (.ofText "specs/operations.yaml"), rfl, rfl, rfl, rfl⟩

def here : Path := ⟨0, []⟩

def tallyText : String :=
  "module: tally\ntemplates:\n- kind: WHEN\n  pattern: add \x7bn\x7d\n  operation: add\n" ++
    "- kind: THEN\n  pattern: it is \x7bn\x7d\n  operation: total\n"

/-- What is read from it. -/
def tallied (root : Path) : Registry where
  moduleName := "tally"
  templates := [⟨.action, "add \x7bn\x7d", "add", [("n", .any)], none, none, .eq, false⟩,
    ⟨.outcome, "it is \x7bn\x7d", "total", [("n", .any)], some "n", none, .eq, false⟩]
  setup := none
  teardown := none
  path := (usual root).registry.text

theorem registryOf_tally :
    registryOf (usual here).registry (.ok (Text.encode tallyText)) = .ok (tallied here) :=
  eq_ok_of_toOption (by decide +kernel)

theorem shown_tallied (root : Path) : (tallied root).Shown := by
  simp [Registry.Shown, tallied]

def sumText : String := "WHEN add 2.\nTHEN it is 2.\n"

def twoSpecs (first : ByteArray) : World where
  tree := ⟨[(["specs"], .dir), (["specs", "operations.yaml"], .file (Text.encode tallyText)),
    (["specs", "first.gwt"], .file first), (["specs", "second.gwt"], .file (Text.encode sumText))]⟩

def firstSpec : Claimant := ⟨(usual here).specs.child "first.gwt", "first"⟩

def secondSpec : Claimant := ⟨(usual here).specs.child "second.gwt", "second"⟩

section TwoSpecs

variable (first : ByteArray)

theorem sound_twoSpecs : (twoSpecs first).tree.Sound :=
  ⟨by simp [twoSpecs], by simp [twoSpecs], by simp [twoSpecs, Tree.get?]⟩

theorem does_specFiles_twoSpecs : (specFiles (usual here).specs).Does (twoSpecs first)
    [firstSpec.path, secondSpec.path] (twoSpecs first) :=
  does_specFiles_of_sorted rfl rfl (by decide +kernel)

theorem claimants_twoSpecs : claimants (usual here).specs [firstSpec.path, secondSpec.path] =
    .ok [firstSpec, secondSpec] := rfl

theorem does_readRegistry_twoSpecs :
    (readRegistry (usual here).registry).Does (twoSpecs first) (tallied here) (twoSpecs first) :=
  does_readRegistry.2 ⟨registryOf_tally, rfl⟩

theorem specsModerate_twoSpecs
    (h : ∀ text, textOf (Text.withoutMark first) = .ok text → Spec.Moderate text) :
    SpecsModerate (twoSpecs first).tree := by
  intro l bytes text hl hfile htext
  have hne : l ≠ [] := by
    rintro rfl
    cases hfile
  have hmem := Tree.mem_of_get? hne (Tree.file?_eq_some.1 hfile)
  simp only [twoSpecs, List.mem_cons, Prod.mk.injEq, reduceCtorEq, and_false, false_or,
    List.not_mem_nil, or_false, Entry.file.injEq] at hmem
  rcases hmem with ⟨rfl, -⟩ | ⟨-, rfl⟩ | ⟨-, rfl⟩
  · exact absurd hl (by decide)
  · exact h text htext
  · have hmark := Text.withoutMark_encode (s := sumText) (c := 'W') (b := 87) rfl (by decide) rfl
    rw [hmark, textOf_encode] at htext
    cases htext
    exact Spec.moderate_of_length (by decide +kernel)

end TwoSpecs

/-- Bytes that are no text spoil only the first of two specs. -/
theorem compile_contains_failures_twoSpecs :
    (textOf (Text.withoutMark ⟨#[0xff]⟩)).toOption = none ∧
    ∃ r, (readRegistry (usual here).registry).Does (twoSpecs ⟨#[0xff]⟩) r (twoSpecs ⟨#[0xff]⟩) ∧
      ((∃ f w', (compile here {} true).run (twoSpecs ⟨#[0xff]⟩) = (.error f, w') ∧
          (compile here {} true).Meets f (twoSpecs ⟨#[0xff]⟩)) ∨
        ∃ report w' spoiled good, (compile here {} true).Does (twoSpecs ⟨#[0xff]⟩) report w' ∧
          report.files = [spoiled, good] ∧
          (compileSpec here {} r true firstSpec.path).Gives (twoSpecs ⟨#[0xff]⟩) spoiled ∧
          (compileSpec here {} r true secondSpec.path).Gives (twoSpecs ⟨#[0xff]⟩) good) := by
  have hnone : (textOf (Text.withoutMark ⟨#[0xff]⟩)).toOption = none := by decide +kernel
  have hr := does_readRegistry_twoSpecs ⟨#[0xff]⟩
  have hmoderate : SpecsModerate (twoSpecs ⟨#[0xff]⟩).tree := by
    refine specsModerate_twoSpecs _ fun text htext => ?_
    rw [htext] at hnone
    cases hnone
  have hboth := compile_contains_failures (usual here) rfl
    (sound_twoSpecs ⟨#[0xff]⟩) hr (shown_tallied _) hmoderate true
  refine ⟨hnone, _, hr, hboth.imp_right ?_⟩
  rintro ⟨report, w', paths, specs, compiled, hdoes, -, hpaths, hspecs, hfiles, hall⟩
  obtain ⟨rfl, -⟩ := hpaths.unique (does_specFiles_twoSpecs _)
  cases hspecs.symm.trans claimants_twoSpecs
  have howners : owners [] [firstSpec, secondSpec] = [firstSpec, secondSpec] := by decide +kernel
  have hapart : [firstSpec, secondSpec].filterMap (collision? here [firstSpec, secondSpec]) = [] := by
    decide +kernel
  rw [howners, hapart, List.append_nil] at hfiles
  rw [howners] at hall
  obtain ⟨spoiled, rest, hspoiled, hrest, rfl⟩ := List.forall₂_cons_left_iff.1 hall
  obtain ⟨good, none, hgood, hend, rfl⟩ := List.forall₂_cons_left_iff.1 hrest
  cases hend
  exact ⟨report, w', spoiled, good, hdoes, hfiles, hspoiled, hgood⟩

/-- A spec that gives neither a plan nor a problem stops everything. -/
theorem not_does_compile_of_misfit {root : Path} {settings : Settings} (s : Places root settings)
    {together : Bool} (hworkers : severalWorkers settings = .ok together) {w : World}
    (hw : w.tree.Sound) {r : Registry} (hr : (readRegistry s.registry).Does w r w)
    {paths : List Path} (hpaths : (specFiles s.specs).Does w paths w) {specs : List Claimant}
    (hspecs : claimants s.specs paths = .ok specs) {c : Claimant} (hc : c ∈ owners [] specs)
    {m : Misfit} (hm : planOf (specName root c.path) (replyOf w c.path) = .error (.misfit m))
    {emit : Bool} {w' : World} : ¬(compile root settings emit).Does w report w' := by
  intro h
  rw [Does, run_compile s (does_readRegistry.1 hr).1] at h
  obtain ⟨paths', specs', compiled, hpaths', hspecs', -, -, hall₂⟩ := forall₂_workOf s hworkers hw h
  obtain ⟨rfl, -⟩ := hpaths.unique hpaths'
  cases hspecs.symm.trans hspecs'
  obtain ⟨i, hi, rfl⟩ := List.mem_iff_getElem.1 hc
  obtain ⟨work, hwork⟩ := hall₂.get hi (hall₂.length_eq ▸ hi)
  rw [List.get_eq_getElem, hm] at hwork
  cases hwork

theorem specOfBytes_encode {c : Char} {b : UInt8} (htext : text.toList = c :: cs)
    (hc : String.utf8EncodeChar c = [b]) (hb : b ≠ 0xef) (hbreaks : '\r' ∉ text.toList)
    (name : String) : specOfBytes name (Text.encode text) = Spec.parse text (some name) := by
  have hunified := Text.unifyBreaks_append_of_not_mem hbreaks []
  rw [List.append_nil, Text.unifyBreaks, List.append_nil] at hunified
  rw [specOfBytes, Text.withoutMark_encode hc hb htext, textOf_encode, hunified, String.ofList_toList]

/-- A line with one integer. -/
def longLine (n : Nat) : String := (⟨.action, Spec.ones n, [], 1⟩ : Spec.Step Nat).render ++ "\n"

/-- With an integer that is too long in one spec there is no report about the other. -/
theorem no_report_of_longLine (h : Numeral.maxDigits < n) (emit : Bool) :
    ¬∃ report w', (compile here {} emit).Does (twoSpecs (Text.encode (longLine n))) report w' := by
  have hlist : (longLine n).toList = "WHEN ".toList ++ (List.replicate n '1' ++ ['.', '\n']) := by
    rw [longLine, String.toList_append, Spec.Step.toList_render, Spec.ones, String.toList_ofList]
    simp [Kind.keyword]
  have hbreaks : '\r' ∉ (longLine n).toList := by simp [hlist]
  have hparse (source : Option String) :
      Spec.parse (longLine n) source = .error (.misfit (.integerTooLong n)) :=
    Spec.parse_of_misfit (Spec.isStatement_ones (by omega)) (Spec.extract_ones h) source
  rintro ⟨report, w', hdoes⟩
  have hreply : replyOf (twoSpecs (Text.encode (longLine n))) firstSpec.path =
    .ok (Text.encode (longLine n)) := rfl
  have hplan : planOf (specName here firstSpec.path)
      (replyOf (twoSpecs (Text.encode (longLine n))) firstSpec.path) =
        .error (.misfit (.integerTooLong n)) := by
    refine bind_eq_error.2 (.inl ?_)
    rw [hreply]
    exact (specOfBytes_encode hlist rfl (by decide) hbreaks _).trans (hparse _)
  exact not_does_compile_of_misfit (usual here) rfl (sound_twoSpecs _)
    (does_readRegistry_twoSpecs _) (does_specFiles_twoSpecs _) claimants_twoSpecs (by decide +kernel)
    hplan hdoes

theorem no_report_of_long_integer :
    ¬∃ report w', (compile here {} true).Does (twoSpecs (Text.encode (longLine 4301))) report w' :=
  no_report_of_longLine (by decide) true

end Project
end Acceptance

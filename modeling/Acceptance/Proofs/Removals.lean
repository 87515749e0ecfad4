import Acceptance.Proofs.AnyOrder
/-!
What compiling takes away. Pruning asks for the mark of the compiler before it removes a file, and so
does the removal of a plan; but the module and the manifest of a spec for which nothing is emitted are
removed unseen. So a test module that is gone after compiling bore the mark, or it had the name of the
module of such a spec.
-/
namespace Acceptance

open Script

variable {t : Tree} {P : Location → Prop} {f : Project.Part × String} {work : Project.Work}

/-! What runs keep, however they end. -/

namespace Script

variable {α β : Type} {k : α → Script β} {I : World → Prop}

/-- Every run from a world with the property ends in one. -/
def Maintains (I : World → Prop) (s : Script α) : Prop := ∀ w, I w → I (s.run w).2

theorem run_bind_of_run {s : Script α} {w : World} (hs : I (s.run w).2)
    (hk : ∀ a w', s.Does w a w' → I w' → I ((k a).run w').2) : I ((s >>= k).run w).2 := by
  rw [run_bind]
  cases hrun : s.run w with
  | mk r w' =>
    rw [hrun] at hs
    cases r with
    | error f => exact hs
    | ok a => exact hk a w' hrun hs

namespace Maintains

theorem of_asks {R : Op → Prop} {G : α → Prop} (hI : ∀ op w, R op → I w → I (op.perform w).2)
    {s : Script α} (hs : s.Asks R G) : s.Maintains I := by
  induction s with
  | done a => exact fun _ => id
  | stop f => exact fun _ => id
  | call op next ih => exact fun w hw => ih _ (hs.2 _) _ (hI op w hs.1 hw)

/-- The second part may depend on what the first has found out. -/
theorem bind {s : Script α} (hs : s.Maintains I)
    (hk : ∀ w a w', s.Does w a w' → I w' → I ((k a).run w').2) : (s >>= k).Maintains I :=
  fun w hw => run_bind_of_run (hs w hw) (hk w)

theorem bind' {s : Script α} (hs : s.Maintains I)
    (hk : ∀ w a w', s.Does w a w' → (k a).Maintains I) : (s >>= k).Maintains I :=
  hs.bind fun w a w' h => hk w a w' h w'

theorem attempt {s : Script α} (hs : s.Maintains I) : s.attempt.Maintains I := by
  intro w hw
  rw [run_attempt]
  exact hs w hw

theorem mapM {g : α → Script β} {as : List α} (hg : ∀ a ∈ as, (g a).Maintains I) :
    (as.mapM g).Maintains I := by
  induction as with
  | nil => exact fun _ => id
  | cons a as ih =>
    obtain ⟨ha, has⟩ := List.forall_mem_cons.1 hg
    rw [List.mapM_cons]
    exact ha.bind' fun _ _ _ _ => (ih has).bind' fun _ _ _ _ _ => id

theorem forM {g : α → Script PUnit} {as : List α} (hg : ∀ a ∈ as, (g a).Maintains I) :
    (as.forM g).Maintains I := by
  induction as with
  | nil => exact fun _ => id
  | cons a as ih =>
    obtain ⟨ha, has⟩ := List.forall_mem_cons.1 hg
    exact ha.bind' fun _ _ _ _ => ih has

theorem and {J : World → Prop} {s : Script α} (hI : s.Maintains I) (hJ : s.Maintains J) :
    s.Maintains fun w => I w ∧ J w :=
  fun w hw => ⟨hI w hw.1, hJ w hw.2⟩

theorem ofOutcome (o : Outcome α) : (Script.ofOutcome o).Maintains I := by
  cases o with
  | ok a => exact fun _ => id
  | error f => exact fun _ => id

end Maintains

end Script

/-- The operation only looks at files. -/
def Op.Looks : Op → Prop
  | .stat _ => True
  | .read _ => True
  | .listBelow _ => True
  | _ => False

theorem Op.Looks.perform {op : Op} (h : op.Looks) (w : World) : (op.perform w).2 = w := by
  cases op with
  | stat p =>
    change (w.stat p).2 = w
    unfold World.stat
    split
    · rfl
    · exact w.look_snd p _
  | read p => exact w.look_snd p _
  | listBelow p => rfl
  | makeDir | write | move | remove | launch | say => exact h.elim

/-- The operation takes away no file at these places. -/
def Op.LeavesAt (P : Location → Prop) : Op → Prop
  | .move p _ => ¬P p.place
  | .remove p => ¬P p.place
  | _ => True

theorem Tree.file?_put_ne_none {l m : Location} (hm : t.file? m ≠ none) (bytes : ByteArray) :
    (t.put l (.file bytes)).file? m ≠ none := by
  by_cases hl : m = l
  · have hroot : m ≠ [] := by
      rintro rfl
      exact hm rfl
    rw [← hl, file?_eq_some.2 (get?_put_self hroot t _)]
    simp
  · rwa [file?_congr (get?_put_of_ne hl t _)]

theorem Op.LeavesAt.perform {op : Op} (h : op.LeavesAt P) (w : World) {m : Location} (hm : P m)
    (hfile : w.tree.file? m ≠ none) : (op.perform w).2.tree.file? m ≠ none := by
  have herase : ∀ l, ¬P l → (w.tree.erase l).file? m ≠ none := by
    intro l hl
    have hne : m ≠ l := by
      rintro rfl
      exact hl hm
    rwa [Tree.file?_congr (Tree.get?_erase_of_ne hne _)]
  rcases op.perform_cases w with ht | ⟨p, -, hnone, ht⟩ | ⟨p, bytes, -, -, ht⟩ |
    ⟨p, q, bytes, rfl, -, -, -, ht⟩ | ⟨p, rfl, -, ht⟩
  all_goals rw [ht]
  · exact hfile
  · rwa [(Tree.KeepsAt.put_dir (P := fun _ => True) hnone).files m trivial]
  · exact Tree.file?_put_ne_none hfile bytes
  · exact Tree.file?_put_ne_none (herase _ h) bytes
  · exact herase _ h

namespace Script

variable {α : Type} {I : World → Prop} {p : Path}

theorem maintains_of_looks {s : Script α} {G : α → Prop} (hs : s.Asks Op.Looks G) : s.Maintains I :=
  .of_asks (fun _ w hop hw => (hop.perform w).symm ▸ hw) hs

theorem maintains_isDir : (isDir p).Maintains I := maintains_of_looks (asks_isDir trivial)

theorem maintains_childrenNamed {start ending : String} : (childrenNamed start ending p).Maintains I :=
  maintains_of_looks ((Asks.ask trivial).bind (H := fun _ => True) fun _ _ => trivial)

end Script

/-! Pruning. -/

namespace Project

variable {root : Path} {settings : Settings} {s : Places root settings} {part : Part} {slug : String}
  {keep : List String} {m : Location} {bytes : ByteArray} {I : World → Prop} {p : Path} {w w' : World}

open Places

theorem maintains_isGenerated : (isGenerated p).Maintains I := by
  rw [isGenerated_eq]
  exact maintains_of_looks ((Asks.ask trivial).bind fun _ _ => .ofOutcome _)

theorem maintains_isPlanFile : (isPlanFile p).Maintains I := maintains_of_looks (asks_isPlanFile trivial)

theorem file?_of_replyOf (h : replyOf w p = .ok bytes) : w.tree.file? p.place = some bytes := by
  obtain ⟨l, hl, hfile⟩ := Tree.read_eq_ok.1 (replyOf_eq_ok h)
  rwa [← Tree.locate_eq_place hl]

/-- A module that is taken for a generated one bears the mark. -/
theorem exists_isTestBytes (h : (isGenerated p).Does w true w') :
    w' = w ∧ ∃ bytes, w.tree.file? p.place = some bytes ∧ IsTestBytes bytes := by
  obtain ⟨hlook, rfl⟩ := does_isGenerated.1 h
  refine ⟨rfl, ?_⟩
  cases hreply : replyOf w p with
  | error e =>
    rw [hreply] at hlook
    cases e <;> cases hlook
  | ok bytes =>
    refine ⟨bytes, file?_of_replyOf hreply, ?_⟩
    rw [hreply, testFileOf] at hlook
    cases htext : textIn (.ok bytes) with
    | error f =>
      rw [htext] at hlook
      cases f <;> cases hlook
    | ok text =>
      rw [htext] at hlook
      exact ⟨text, htext, Except.ok.inj hlook⟩

theorem isPlanBytes_of_planFileOf (h : planFileOf (.ok bytes) = .ok true) : IsPlanBytes bytes := by
  unfold planFileOf at h
  split at h
  · next v hv =>
    obtain ⟨text, htext, hread⟩ := bind_eq_ok.1 hv
    refine ⟨text, v, htext, ?_, Except.ok.inj h⟩
    cases hjson : Json.read text with
    | error e =>
      rw [hjson] at hread
      cases hread
    | ok v' =>
      rw [hjson] at hread
      cases hread
      rfl
  · cases h
  · cases h

/-- What is taken for a plan bears the mark. -/
theorem exists_isPlanBytes (h : (isPlanFile p).Does w true w') :
    w' = w ∧ ∃ bytes, w.tree.file? p.place = some bytes ∧ IsPlanBytes bytes := by
  obtain ⟨hlook, rfl⟩ := does_isPlanFile.1 h
  refine ⟨rfl, ?_⟩
  cases hreply : replyOf w p with
  | error e =>
    rw [hreply, planFileOf_of_error] at hlook
    cases hlook
  | ok bytes =>
    rw [hreply] at hlook
    exact ⟨bytes, file?_of_replyOf hreply, isPlanBytes_of_planFileOf hlook⟩

/-- The paths that are gone through are those of a part. -/
theorem exists_slug_of_children (part : Part) {start ending : String} {ps : List Path}
    (h : (childrenNamed start ending (s.dir part)).Does w ps w') (hstart : start.toList = part.start)
    (hending : ending.toList = part.ending) : ∀ p ∈ ps, ∃ slug, p = s.path part slug := by
  intro p hp
  obtain ⟨name, hfits, -, rfl⟩ := (mem_children_iff h).1 hp
  obtain ⟨slug, rfl⟩ := (part.fitsName_iff hstart hending).1 hfits
  exact ⟨slug, rfl⟩

/-- There is a file that pruning modules will not take: no module that is not to be kept bears the
mark and is this file or has it for its manifest. -/
structure Spared (s : Places root settings) (keep : List String) (m : Location) (bytes : ByteArray)
    (t : Tree) : Prop where
  there : t.file? m = some bytes
  tests : ∀ slug, m = (s.path .tests slug).place → Part.tests.file slug ∉ keep → ¬IsTestBytes bytes
  manifest : ∀ slug code, m = (s.path .manifest slug).place → Part.tests.file slug ∉ keep →
    t.file? (s.path .tests slug).place = some code → ¬IsTestBytes code

theorem Spared.keepsAt {t' : Tree} (h : Spared s keep m bytes t) (hk : t.KeepsAt P t') (hm : P m)
    (htests : ∀ slug, m = (s.path .manifest slug).place → P (s.path .tests slug).place) :
    Spared s keep m bytes t' where
  there := (hk.files m hm).trans h.there
  tests := h.tests
  manifest slug code hslug hkeep hcode :=
    h.manifest slug code hslug hkeep ((hk.files _ (htests slug hslug)).symm.trans hcode)

theorem asks_remove {R : Op → Prop} (h : R (.remove p)) : (remove p).Asks R fun _ => True :=
  (Asks.ask h).bind fun _ _ => .ofReply _

theorem sparesAt_remove (hp : ¬P p.place) : (remove p).SparesAt P :=
  asks_remove hp

theorem place_tests_ne (hpart : part ≠ .tests) {slug' : String} :
    (s.path .tests slug).place ≠ (s.path part slug').place := by
  intro h
  rcases Part.file_eq_iff.1 (place_path_eq_iff.1 h).2 with h | h | h
  · exact hpart h.1.symm
  · cases h.1
  · cases h.1

theorem maintains_pruneTest :
    (pruneTest keep (s.path .tests slug)).Maintains fun w => Spared s keep m bytes w.tree := by
  unfold pruneTest
  split
  · exact fun _ => id
  · next hkeep =>
    have hkeep : Part.tests.file slug ∉ keep := by simpa using hkeep
    refine maintains_isGenerated.bind fun v b v' hb hv => ?_
    cases b with
    | false => exact hv
    | true =>
      obtain ⟨rfl, code, hcode, hmark⟩ := exists_isTestBytes hb
      have htests : m ≠ (s.path .tests slug).place := by
        intro hm
        refine hv.tests slug hm hkeep ?_
        rwa [Option.some.inj (hv.there.symm.trans (hm ▸ hcode))]
      have hmanifest : m ≠ (s.path .manifest slug).place :=
        fun hm => hv.manifest slug code hm hkeep hcode hmark
      have hspares : (do
          remove (s.path .tests slug)
          removeIfThere (manifestBeside (s.path .tests slug))
          return [(s.path .tests slug).name] : Script (List String)).SparesAt fun l =>
            l ≠ (s.path .tests slug).place ∧ l ≠ (s.path .manifest slug).place := by
        rw [manifestBeside_path]
        refine (sparesAt_remove fun h => h.1 rfl).bind fun _ _ => ?_
        exact (sparesAt_removeIfThere fun h => h.2 rfl).bind fun _ _ => trivial
      refine hv.keepsAt (hspares.keepsAt v') ⟨htests, hmanifest⟩ fun slug' hslug' => ⟨?_, ?_⟩
      · intro h
        obtain rfl := Part.file_injective (place_path_eq_iff.1 h).2
        exact hmanifest hslug'
      · exact place_tests_ne Part.noConfusion

/-- What is kept whichever module is looked at, pruning keeps. -/
theorem maintains_pruneTests_of
    (h : ∀ slug, (pruneTest keep (s.path .tests slug)).Maintains I) :
    (pruneTests s.tests keep).Maintains I := by
  refine maintains_isDir.bind' fun _ b _ _ => ?_
  cases b with
  | false => exact fun _ => id
  | true =>
    refine maintains_childrenNamed.bind' fun _ ps _ hps => ?_
    refine (Maintains.mapM fun p hp => ?_).bind' fun _ _ _ _ _ => id
    obtain ⟨slug, rfl⟩ := exists_slug_of_children .tests hps rfl rfl p hp
    exact h slug

theorem maintains_pruneTests :
    (pruneTests s.tests keep).Maintains fun w => Spared s keep m bytes w.tree :=
  maintains_pruneTests_of fun _ => maintains_pruneTest

theorem maintains_prunePlan (hplan : m = (s.path .plan slug).place → Part.plan.file slug ∉ keep →
      ¬IsPlanBytes bytes) :
    (prunePlan keep (s.path .plan slug)).Maintains fun w => w.tree.file? m = some bytes := by
  unfold prunePlan
  split
  · exact fun _ => id
  · next hkeep =>
    have hkeep : Part.plan.file slug ∉ keep := by simpa using hkeep
    refine maintains_isPlanFile.bind fun v b v' hb hv => ?_
    cases b with
    | false => exact hv
    | true =>
      obtain ⟨rfl, bytes', hbytes, hmark⟩ := exists_isPlanBytes hb
      have hm : m ≠ (s.path .plan slug).place := by
        intro hm
        refine hplan hm hkeep ?_
        rwa [Option.some.inj (hv.symm.trans (hm ▸ hbytes))]
      have hspares : (remove (s.path .plan slug)).SparesAt (· ≠ (s.path .plan slug).place) :=
        sparesAt_remove fun h => h rfl
      exact ((hspares.keepsAt v').files m hm).trans hv

theorem maintains_prunePlans_of (h : ∀ slug, (prunePlan keep (s.path .plan slug)).Maintains I) :
    (prunePlans s.plans keep).Maintains I := by
  refine maintains_isDir.bind' fun _ b _ _ => ?_
  cases b with
  | false => exact fun _ => id
  | true =>
    refine maintains_childrenNamed.bind' fun _ ps _ hps => .forM fun p hp => ?_
    obtain ⟨slug, rfl⟩ := exists_slug_of_children .plan hps rfl rfl p hp
    exact h slug

theorem maintains_prunePlans (hplan : ∀ slug, m = (s.path .plan slug).place →
      Part.plan.file slug ∉ keep → ¬IsPlanBytes bytes) :
    (prunePlans s.plans keep).Maintains fun w => w.tree.file? m = some bytes :=
  maintains_prunePlans_of fun slug => maintains_prunePlan (hplan slug)

/-! The work for a spec. -/

/-- Other specs have nothing to do with a module. -/
theorem not_own_tests {slug' : String} (h : slug ≠ slug') : ¬s.Own slug' (s.path .tests slug).place := by
  rintro ⟨part, hm | hm⟩
  · by_cases hpart : part = .tests
    · subst hpart
      exact h (Part.file_injective (place_path_eq_iff.1 hm).2)
    · exact place_tests_ne hpart hm
  · exact draftPlace_ne hm.symm

theorem maintains_other {j : Job} (Q : Option ByteArray → Prop) (h : ¬s.Own j.slug m) :
    (j.script s).Maintains fun w => Q (w.tree.file? m) := by
  intro w hw
  have hspares : (j.script s).SparesAt (· = m) := sparesAt_script fun l hl hm => h (hm ▸ hl)
  rwa [(hspares.keepsAt w).files m rfl]

/-- What is removed with a group is not where its files are. -/
theorem place_ne_of_stale {files : List (Part × String)} {stale : List Part}
    (hp : p ∈ (stale.map (s.path · slug)).filter fun p =>
      !(files.map fun f => (s.path f.1 slug, f.2)).any (·.1 = p))
    (hf : f ∈ files) : p.place ≠ (s.path f.1 slug).place := by
  intro hplace
  obtain ⟨hstale, hother⟩ := List.mem_filter.1 hp
  obtain ⟨part, -, rfl⟩ := List.mem_map.1 hstale
  obtain rfl := part_of_place hplace
  have hany : (files.map fun f => (s.path f.1 slug, f.2)).any (·.1 = s.path f.1 slug) = true :=
    List.any_eq_true.2 ⟨_, List.mem_map_of_mem hf, by simp⟩
  rw [hany] at hother
  cases hother

/-- What work writes it does not take away. -/
theorem leavesAt_work (hf : f ∈ work.files) :
    (work.script s slug).Asks (Op.LeavesAt (· = (s.path f.1 slug).place)) fun _ => True := by
  cases work with
  | drop | rest => cases hf
  | write files stale =>
    change (writeGroup _ _).Asks _ _
    rw [writeGroup_eq]
    have hdrafts : ∀ g ∈ files, Drafts (Op.LeavesAt (· = (s.path f.1 slug).place)) (s.path g.1 slug, g.2) :=
      fun g _ => ⟨fun _ _ => trivial, trivial, draftPlace_ne, draftPlace_ne⟩
    refine (asks_putGroup (fun _ => trivial) (List.forall_mem_map.2 hdrafts)).bind fun _ _ => ?_
    exact .forM fun p hp => asks_removeIfThere (place_ne_of_stale hp hf)

theorem maintains_write {j : Job} {Q : Option ByteArray → Prop} (hf : f ∈ j.work.files)
    (hnone : ¬Q none) (hsome : ∀ bytes, Q (some bytes)) :
    (j.script s).Maintains fun w => Q (w.tree.file? (s.path f.1 j.slug).place) := by
  intro w hw
  have hthere : (j.script s).Maintains fun w => w.tree.file? (s.path f.1 j.slug).place ≠ none :=
    .of_asks (fun _ w hop => hop.perform w rfl) (leavesAt_work hf)
  obtain ⟨bytes, hbytes⟩ := Option.ne_none_iff_exists'.1 (hthere w fun h => hnone (h ▸ hw))
  rw [hbytes]
  exact hsome bytes

/-- What is no plan is not dropped as one. -/
theorem maintains_drop (hbytes : ¬IsPlanBytes bytes) :
    (Work.drop.script s slug).Maintains fun w => w.tree.file? (s.path .plan slug).place = some bytes := by
  refine maintains_isPlanFile.bind fun w b w' hb hw => ?_
  cases b with
  | true =>
    obtain ⟨rfl, bytes', hbytes', hmark⟩ := exists_isPlanBytes hb
    cases hw.symm.trans hbytes'
    exact absurd hmark hbytes
  | false =>
    have hspares : (writeGroup [] [s.path .tests slug, s.path .manifest slug]).SparesAt
        (· = (s.path .plan slug).place) := by
      refine asks_writeGroup (fun _ => trivial) (by simp) ?_
      refine List.forall_mem_cons.2 ⟨fun h => ?_, List.forall_mem_singleton.2 fun h => ?_⟩
      · cases part_of_place h
      · cases part_of_place h
    exact ((hspares.keepsAt w').files _ rfl).trans hw

/-- What is made of a spec: nothing, a plan alone if nothing of it is ready, or a plan with a module
and its manifest. -/
inductive Makes (root : Path) (r : Registry) (w : World) (c : Claimant) : Work → Prop
  | nothing {p : Problem}
      (hplan : planOf (specName root c.path) (replyOf w c.path) = .error (.problem p)) :
      Makes root r w c .drop
  | plan {plan d : Plan} {text : String}
      (hplan : planOf (specName root c.path) (replyOf w c.path) = .ok plan)
      (hresolve : plan.resolve r = .ok d) (htext : Plan.write d.stored = .ok text)
      (hready : d.ready.scenarios = []) :
      Makes root r w c (.write [(.plan, text)] [.tests, .manifest])
  | module {plan d : Plan} {text : String} {m : Emission.TestModule}
      (hplan : planOf (specName root c.path) (replyOf w c.path) = .ok plan)
      (hresolve : plan.resolve r = .ok d) (htext : Plan.write d.stored = .ok text)
      (hready : d.ready.scenarios ≠ [])
      (hmodule : Emission.testModule r d.stored c.slug d.ready.stored.scenarios = .ok m) :
      Makes root r w c
        (.write [(.plan, text), (.tests, m.code), (.manifest, m.manifestText)] [.tests, .manifest])

/-- There is nothing to test: the spec has no plan, or nothing of its plan is ready. -/
def Untested (root : Path) (r : Registry) (w : World) (c : Claimant) : Prop :=
  (∃ p, planOf (specName root c.path) (replyOf w c.path) = .error (.problem p)) ∨
    ∃ plan d, planOf (specName root c.path) (replyOf w c.path) = .ok plan ∧ plan.resolve r = .ok d ∧
      d.ready.scenarios = []

variable {r : Registry} {c : Claimant} {cs : List Claimant} {j : Job}

theorem Makes.exists_module (h : Makes root r w c work) (htested : ¬Untested root r w c) :
    ∃ code, (.tests, code) ∈ work.files := by
  cases h with
  | nothing hplan => exact absurd (.inl ⟨_, hplan⟩) htested
  | plan hplan hresolve _ hready => exact absurd (.inr ⟨_, _, hplan, hresolve, hready⟩) htested
  | module => exact ⟨_, .tail _ (.head _)⟩

theorem makes_of_jobOf (h : jobOf root r true (replyOf w) c = .ok j) : Makes root r w c j.work := by
  obtain ⟨slug, report, work⟩ := j
  obtain ⟨-, hwork⟩ := jobOf_eq_ok.1 h
  cases hplan : planOf (specName root c.path) (replyOf w c.path) with
  | error f =>
    rw [hplan] at hwork
    cases f with
    | problem p =>
      cases hwork
      exact .nothing hplan
    | _ => cases hwork
  | ok plan =>
    rw [hplan] at hwork
    obtain ⟨d, text, hd, htext, compiled, hcompiled, hmade⟩ := workOf_eq_ok.1 hwork
    cases hmade
    by_cases hready : d.ready.stored.scenarios.isEmpty = true
    · rw [emitted, if_pos hready] at hcompiled
      cases hcompiled
      exact .plan hplan hd htext (List.map_eq_nil_iff.1 (List.isEmpty_iff.1 hready))
    · rw [emitted, if_neg hready] at hcompiled
      obtain ⟨m, hm, hcompiled⟩ := bind_eq_ok.1 hcompiled
      cases hcompiled
      refine .module hplan hd htext (fun hnil => hready ?_) hm
      exact List.isEmpty_iff.2 (List.map_eq_nil_iff.2 hnil)

/-! Runs. -/

theorem maintains_afterRead
    (hjob : ∀ j, jobOf root r true (replyOf w) c = .ok j → (j.script s).Maintains I) :
    (afterRead s r true c (replyOf w c.path)).Maintains fun v => w.tree.KeepsSpecs v.tree ∧ I v := by
  refine (Maintains.ofOutcome _).bind' fun _ made _ hmade => ?_
  have hj := hjob ⟨c.slug, made.1, made.2⟩ (jobOf_eq_ok.2 ⟨rfl, (does_ofOutcome.1 hmade).1⟩)
  have hspecs : (made.2.script s c.slug).Maintains fun v => w.tree.KeepsSpecs v.tree :=
    fun v hv => hv.trans ((sparesSpecs_work made.2).keepsSpecs v)
  exact (hspecs.and hj).bind' fun _ _ _ _ _ => id

/-- As long as specs are kept, compiling one of them keeps what its job keeps. -/
theorem maintains_compileSpec (hw : w.tree.Sound)
    (hfound : Found w.tree s.specs c.path ∧ specSlug s.specs c.path = .ok c.slug)
    (hjob : ∀ j, jobOf root r true (replyOf w) c = .ok j → (j.script s).Maintains I) :
    (compileSpec root settings r true c.path).Maintains
      fun v => w.tree.KeepsSpecs v.tree ∧ I v := by
  intro v hv
  rw [compileSpec_eq s hfound.2, run_bind_of_does (does_ask.2 (perform_read v c.path)),
    replyOf_of_keepsSpecs hv.1 hw hfound.1]
  exact maintains_afterRead hjob v hv

theorem maintains_several {each : Path → Script (FileReport String Nat)} {paths : List Path}
    (heach : ∀ p ∈ paths, (each p).Maintains I) (together : Bool) :
    (several together each paths).Maintains I := by
  unfold several
  split
  · exact (Maintains.mapM fun p hp => (heach p hp).attempt).bind' fun _ _ _ _ => .ofOutcome _
  · exact .mapM heach

theorem maintains_specFiles : (specFiles p).Maintains I := by
  refine maintains_isDir.bind' fun _ b _ _ => ?_
  cases b with
  | false => exact fun _ => id
  | true => exact maintains_of_looks ((Asks.ask trivial).bind (H := fun _ => True) fun _ _ => trivial)

theorem maintains_of_no_workers {e : Misfit} (h : severalWorkers settings = .error e) :
    (compileAll root settings r true).Maintains I := by
  refine (Maintains.ofOutcome _).bind' fun _ dir _ _ => maintains_specFiles.bind' fun _ paths _ _ => ?_
  refine (Maintains.ofOutcome _).bind' fun _ specs _ _ => (Maintains.ofOutcome _).bind' ?_
  intro _ together _ htogether
  cases h.symm.trans (does_ofFit.1 htogether).1

/-- What each job keeps and pruning keeps, compiling keeps. -/
theorem maintained_by_compile (s : Places root settings) (hw : w.tree.Sound) (hI : I w)
    (hwork : ∀ r cs, Loaded s r w cs → ∀ c ∈ cs, ∀ j, jobOf root r true (replyOf w) c = .ok j →
      (j.script s).Maintains I)
    (hprune : ∀ r cs jobs, Loaded s r w cs → cs.mapM (jobOf root r true (replyOf w)) = .ok jobs →
      (pruneTests s.tests (jobs.filterMap (·.report.output))).Maintains I ∧
        (prunePlans s.plans (cs.map fun c => Part.plan.file c.slug)).Maintains I) :
    I ((compile root settings true).run w).2 := by
  rw [compile_eq s, run_bind_of_does (does_ask.2 (perform_read w s.registry))]
  cases hr : registryOf s.registry (replyOf w s.registry) with
  | error f => cases f <;> exact hI
  | ok r =>
    change I ((compileAll root settings r true).run w).2
    cases hworkers : severalWorkers settings with
    | error e => exact maintains_of_no_workers hworkers w hI
    | ok together =>
      rw [compileAll_eq s hworkers]
      refine run_bind_of_run (maintains_specFiles w hI) fun paths w₁ hpaths _ => ?_
      obtain ⟨rfl, -⟩ := does_specFiles hw hpaths
      refine run_bind_of_run (Maintains.ofOutcome _ _ hI) fun specs w₁ hspecs _ => ?_
      obtain ⟨hclaimants, rfl⟩ := does_ofFit.1 hspecs
      have hloaded : Loaded s r w₁ (owners [] specs) :=
        ⟨hw, does_readRegistry.2 ⟨hr, rfl⟩, paths, specs, hpaths, hclaimants, rfl⟩
      have hcompiled := maintains_several (List.forall_mem_map.2 fun c hc =>
        maintains_compileSpec hw (hloaded.found c hc) (hwork r _ hloaded c hc)) together
      refine run_bind_of_run (hcompiled w₁ ⟨.refl _, hI⟩).2 fun files w₂ hfiles hw₂ => ?_
      obtain ⟨jobs, hjobs, rfl, -⟩ :=
        (does_compileSpecs hw (.refl _) hloaded.found).1 (does_several.1 hfiles)
      obtain ⟨htests, hplans⟩ := hprune r _ jobs hloaded hjobs
      simp only [if_true, outputs_eq]
      exact htests.bind' (fun _ _ _ _ => hplans.bind' fun _ _ _ _ _ => id) w₂ hw₂

theorem Loaded.unique {r' : Registry} {cs' : List Claimant} (h : Loaded s r w cs)
    (h' : Loaded s r' w cs') : cs = cs' := by
  obtain ⟨paths, specs, hpaths, hspecs, rfl⟩ := h.owned
  obtain ⟨paths', specs', hpaths', hspecs', rfl⟩ := h'.owned
  obtain ⟨rfl, -⟩ := hpaths.unique hpaths'
  rw [Except.ok.inj (hspecs.symm.trans hspecs')]

theorem Loaded.eq_of_slug (h : Loaded s r w cs) {c d : Claimant} (hc : c ∈ cs) (hd : d ∈ cs)
    (hslug : c.slug = d.slug) : c = d := by
  obtain ⟨paths, specs, -, -, rfl⟩ := h.owned
  have hnodup : ((owners [] specs).map (·.slug)).Nodup := nodup_owners List.nodup_nil
  exact List.inj_on_of_nodup_map hnodup hc hd hslug

theorem mem_changes_of_mem_files (hf : f ∈ work.files) :
    (f.1, some (Text.encode f.2)) ∈ work.changes := by
  cases work with
  | drop | rest => cases hf
  | write files stale => exact List.mem_append_left _ (List.mem_map_of_mem hf)

/-- Modules that are written are to be kept. -/
theorem mem_outputs_of_tested {jobs : List Job}
    (hjobs : cs.mapM (jobOf root r true (replyOf w)) = .ok jobs) (hc : c ∈ cs)
    (htested : ¬Untested root r w c) :
    Part.tests.file c.slug ∈ jobs.filterMap (·.report.output) := by
  obtain ⟨j, hj, hjob, -⟩ := exists_mem_zip hjobs hc
  obtain ⟨code, hcode⟩ := (makes_of_jobOf hjob).exists_module htested
  have houtput := (full_of_jobOf hjob).output _ (mem_changes_of_mem_files hcode)
  rw [(jobOf_eq_ok.1 hjob).1] at houtput
  exact List.mem_filterMap.2 ⟨j, hj, houtput⟩

theorem spared_of_kept (hfile : t.file? (s.path .tests slug).place = some bytes)
    (hkeep : Part.tests.file slug ∉ keep → ¬IsTestBytes bytes) :
    Spared s keep (s.path .tests slug).place bytes t := by
  refine ⟨hfile, fun slug' h => ?_, fun slug' _ h => absurd h (place_tests_ne Part.noConfusion)⟩
  obtain rfl := Part.file_injective (place_path_eq_iff.1 h).2
  exact hkeep

theorem spared_of_ne (hfile : t.file? m = some bytes)
    (htests : ∀ slug, m ≠ (s.path .tests slug).place)
    (hmanifest : ∀ slug, m ≠ (s.path .manifest slug).place) : Spared s keep m bytes t :=
  ⟨hfile, fun slug h => absurd h (htests slug), fun slug _ h => absurd h (hmanifest slug)⟩

/-- A module without the mark stays, unless it has the name of one that there is no more. -/
theorem file?_tests_ne_none (s : Places root settings) (hw : w.tree.Sound) (hbytes : ¬IsTestBytes bytes)
    (htested : ∀ r cs, Loaded s r w cs → ∀ c ∈ cs, c.slug = slug → ¬Untested root r w c)
    (hfile : w.tree.file? (s.path .tests slug).place = some bytes) :
    ((compile root settings true).run w).2.tree.file? (s.path .tests slug).place ≠ none := by
  -- the module may be written anew if there is a spec for it, and is kept as it is otherwise
  let owned := ∃ r cs, Loaded s r w cs ∧ ∃ c ∈ cs, c.slug = slug
  let stays : Option ByteArray → Prop := fun o => ∃ code, o = some code ∧ (owned ∨ ¬IsTestBytes code)
  obtain ⟨code, hcode, -⟩ : stays _ := by
    refine maintained_by_compile s hw (I := fun v => stays (v.tree.file? (s.path .tests slug).place))
      ⟨bytes, hfile, .inr hbytes⟩ (fun r cs hloaded c hc j hj => ?_) fun r cs jobs hloaded hjobs => ⟨?_, ?_⟩
    · have hslug := (jobOf_eq_ok.1 hj).1
      by_cases hcs : c.slug = slug
      · obtain ⟨code, hcode⟩ := (makes_of_jobOf hj).exists_module (htested r cs hloaded c hc hcs)
        rw [← hcs, ← hslug]
        exact maintains_write hcode (by simp [stays])
          fun new => ⟨new, rfl, .inl ⟨r, cs, hloaded, c, hc, hcs⟩⟩
      · exact maintains_other stays (not_own_tests fun h => hcs (h.trans hslug).symm)
    · rintro v ⟨code, hcode, hmark⟩
      refine ⟨code, (maintains_pruneTests v (spared_of_kept hcode fun hgone => ?_)).there, hmark⟩
      refine hmark.resolve_left ?_
      rintro ⟨r', cs', hloaded', c, hc, rfl⟩
      obtain rfl := hloaded.unique hloaded'
      exact hgone (mem_outputs_of_tested hjobs hc (htested r cs hloaded c hc rfl))
    · rintro v ⟨code, hcode, hmark⟩
      exact ⟨code, maintains_prunePlans (fun _ h => absurd h (place_tests_ne Part.noConfusion)) v hcode,
        hmark⟩
  simp [hcode]

theorem Makes.exists_plan (h : Makes root r w c work) {plan : Plan}
    (hplan : planOf (specName root c.path) (replyOf w c.path) = .ok plan) :
    ∃ text, (.plan, text) ∈ work.files := by
  cases h with
  | nothing herror => cases herror.symm.trans hplan
  | plan => exact ⟨_, .head _⟩
  | module => exact ⟨_, .head _⟩

theorem Makes.eq_drop (h : Makes root r w c work)
    (hnone : ∀ plan, planOf (specName root c.path) (replyOf w c.path) ≠ .ok plan) :
    work = .drop := by
  cases h with
  | nothing => rfl
  | plan hplan => exact absurd hplan (hnone _)
  | module hplan => exact absurd hplan (hnone _)

/-- A file in the place of a plan stays if it is none. -/
theorem file?_plan_ne_none (s : Places root settings) (hne : s.plans.place ≠ s.tests.place)
    (hw : w.tree.Sound) (hbytes : ¬IsPlanBytes bytes)
    (hfile : w.tree.file? (s.path .plan slug).place = some bytes) :
    ((compile root settings true).run w).2.tree.file? (s.path .plan slug).place ≠ none := by
  let planned := ∃ r cs, Loaded s r w cs ∧ ∃ c ∈ cs, c.slug = slug ∧
    ∃ plan, planOf (specName root c.path) (replyOf w c.path) = .ok plan
  let stays : Option ByteArray → Prop := fun o => ∃ text, o = some text ∧ (planned ∨ ¬IsPlanBytes text)
  obtain ⟨text, htext, -⟩ : stays _ := by
    refine maintained_by_compile s hw (I := fun v => stays (v.tree.file? (s.path .plan slug).place))
      ⟨bytes, hfile, .inr hbytes⟩ (fun r cs hloaded c hc j hj => ?_) fun r cs jobs hloaded hjobs => ⟨?_, ?_⟩
    · have hslug := (jobOf_eq_ok.1 hj).1
      by_cases hcs : c.slug = slug
      · by_cases hplan : ∃ plan, planOf (specName root c.path) (replyOf w c.path) = .ok plan
        · obtain ⟨text, htext⟩ := (makes_of_jobOf hj).exists_plan hplan.choose_spec
          rw [← hcs, ← hslug]
          exact maintains_write htext (by simp [stays])
            fun new => ⟨new, rfl, .inl ⟨r, cs, hloaded, c, hc, hcs, hplan⟩⟩
        · rintro v ⟨text, htext, hmark⟩
          have hdrop := (makes_of_jobOf hj).eq_drop fun plan h => hplan ⟨plan, h⟩
          rw [Job.script, hdrop, hslug, hcs]
          refine ⟨text, maintains_drop (hmark.resolve_left ?_) v htext, hmark⟩
          rintro ⟨r', cs', hloaded', d, hd, hds, hplanned⟩
          obtain rfl := hloaded.unique hloaded'
          obtain rfl := hloaded.eq_of_slug hc hd (hcs.trans hds.symm)
          exact hplan hplanned
      · exact maintains_other stays fun hown => hcs (hslug.symm.trans (hown.slug_eq hne own_place))
    · rintro v ⟨text, htext, hmark⟩
      refine ⟨text, (maintains_pruneTests v (spared_of_ne htext ?_ ?_)).there, hmark⟩
      all_goals exact fun _ h => Part.noConfusion (place_path_injective hne h).1
    · rintro v ⟨text, htext, hmark⟩
      refine ⟨text, maintains_prunePlans (fun slug' h hgone => hmark.resolve_left ?_) v htext, hmark⟩
      rintro ⟨r', cs', hloaded', c, hc, rfl, -⟩
      obtain rfl := hloaded.unique hloaded'
      rw [← (place_path_eq_iff.1 h).2] at hgone
      exact hgone (List.mem_map.2 ⟨c, hc, rfl⟩)
  simp [htext]

/-- A test module that is gone after compiling bore the mark of the compiler, or it had the name of
the module of a spec for which nothing is emitted. A plan that is gone bore its mark. -/
theorem removed_by_compile (s : Places root settings) {w : World} (hw : w.tree.Sound) (name : String)
    (bytes : ByteArray) :
    (fitsName "test_" ".py" name = true → w.tree.file? (s.tests.place ++ [name]) = some bytes →
      ((compile root settings true).run w).2.tree.file? (s.tests.place ++ [name]) = none →
      IsTestBytes bytes ∨ ∃ r cs, Loaded s r w cs ∧
        ∃ c ∈ cs, name = Part.tests.file c.slug ∧ Untested root r w c) ∧
    (s.plans.place ≠ s.tests.place → fitsName "" ".json" name = true →
      w.tree.file? (s.plans.place ++ [name]) = some bytes →
      ((compile root settings true).run w).2.tree.file? (s.plans.place ++ [name]) = none →
      IsPlanBytes bytes) := by
  constructor
  · intro hfits hfile hgone
    obtain ⟨slug, rfl⟩ := (Part.tests.fitsName_iff rfl rfl).1 hfits
    have hplace : (s.path .tests slug).place = s.tests.place ++ [Part.tests.file slug] := place_path
    rw [← hplace] at hfile hgone
    by_contra! hnot
    refine file?_tests_ne_none s hw hnot.1 (fun r cs hloaded c hc hslug => ?_) hfile hgone
    exact hnot.2 r cs hloaded c hc (hslug ▸ rfl)
  · intro hne hfits hfile hgone
    obtain ⟨slug, rfl⟩ := (Part.plan.fitsName_iff rfl rfl).1 hfits
    have hplace : (s.path .plan slug).place = s.plans.place ++ [Part.plan.file slug] := place_path
    rw [← hplace] at hfile hgone
    by_contra hbytes
    exact file?_plan_ne_none s hne hw hbytes hfile hgone

/-! Projects without templates. -/

def bare (files : List (Location × Entry)) : World where
  tree := ⟨[(["specs"], .dir),
    (["specs", "operations.yaml"], .file (Text.encode "module: m\ntemplates: []\n"))] ++ files⟩

/-- A project without specs, in which a module and a plan are left. -/
def leftover : World :=
  bare [(["gen"], .dir), (["gen", "old.json"],
      .file (Text.encode ("\x7b\"generated\": \"" ++ Plan.marker ++ "\"\x7d"))),
    outDir, (["out", "test_old.py"], .file (Text.encode Emission.generatedMarker))]

theorem removed_by_compile_leftover : leftover.tree.Sound ∧
    (placesFor "out").plans.place ≠ (placesFor "out").tests.place ∧
    (∃ bytes, leftover.tree.file? ["out", "test_old.py"] = some bytes ∧
      ((compile here (settingsFor "out") true).run leftover).2.tree.file? ["out", "test_old.py"] = none ∧
      IsTestBytes bytes) ∧
    ∃ bytes, leftover.tree.file? ["gen", "old.json"] = some bytes ∧
      ((compile here (settingsFor "out") true).run leftover).2.tree.file? ["gen", "old.json"] = none ∧
      IsPlanBytes bytes := by
  have hsound : leftover.tree.Sound := by
    refine ⟨?_, ?_, ?_⟩
    all_goals simp [leftover, bare, outDir, Tree.get?]
  have hne : (placesFor "out").plans.place ≠ (placesFor "out").tests.place := by decide +kernel
  have hgone : ∀ m ∈ [["out", "test_old.py"], ["gen", "old.json"]],
      ((compile here (settingsFor "out") true).run leftover).2.tree.file? m = none := by decide +kernel
  have htests := hgone ["out", "test_old.py"] (.head _)
  have hplan := hgone ["gen", "old.json"] (.tail _ (.head _))
  obtain ⟨hmodule, -⟩ := removed_by_compile (placesFor "out") hsound "test_old.py"
    (Text.encode Emission.generatedMarker)
  refine ⟨hsound, hne, ⟨_, rfl, htests, ?_⟩, _, rfl, hplan, ?_⟩
  · rcases hmodule (by decide +kernel) rfl htests with hmark | ⟨r, cs, hloaded, c, hc, -⟩
    · exact hmark
    · obtain ⟨names, bytes, -, -, hget, hspec⟩ := (hloaded.found c hc).1
      have hnot : leftover.tree.entries.all (fun e => !decide (IsSpecPlace e.1)) = true := by
        decide +kernel
      have hmem := Tree.mem_of_get? (fun hroot => by rw [hroot] at hget; cases hget) hget
      have hother := List.all_eq_true.1 hnot _ hmem
      rw [decide_eq_true hspec] at hother
      cases hother
  · exact (removed_by_compile (placesFor "out") hsound "old.json" _).2 hne (by decide +kernel) rfl hplan

/-- A project with a spec that is no text, and a test that was written by hand. -/
def handWritten : World :=
  bare [spoiledSpec, outDir, (["out", "test_second.py"], .file (Text.encode "def test_one(): pass\n"))]

/-- A test that was written by hand is removed, if it has the name of a module that is not made. -/
theorem hand_written_test_removed : handWritten.tree.Sound ∧ ∃ bytes report w',
    handWritten.tree.file? ["out", "test_second.py"] = some bytes ∧ ¬IsTestBytes bytes ∧
    (compile here (settingsFor "out") true).Does handWritten report w' ∧ report.errors = [] ∧
    w'.tree.file? ["out", "test_second.py"] = none := by
  have hsound : handWritten.tree.Sound := by
    refine ⟨?_, ?_, ?_⟩
    all_goals simp [handWritten, bare, spoiledSpec, outDir, Tree.get?]
  have hmark : ¬IsTestBytes (Text.encode "def test_one(): pass\n") := by
    rintro ⟨text, htext, hoccurs⟩
    rw [textOf_encode] at htext
    cases htext
    revert hoccurs
    decide +kernel
  have hreport : ((compile here (settingsFor "out") true).run handWritten).1.toOption.map
      (·.errors.isEmpty) = some true := by decide +kernel
  have hgone : ((compile here (settingsFor "out") true).run handWritten).2.tree.file?
      ["out", "test_second.py"] = none := by decide +kernel
  obtain ⟨report, hdoes, herrors⟩ := Option.map_eq_some_iff.1 hreport
  exact ⟨hsound, _, report, _, rfl, hmark, Prod.ext (eq_ok_of_toOption hdoes) rfl,
    List.isEmpty_iff.1 herrors, hgone⟩

end Project
end Acceptance

import Acceptance.Proofs.OneSpec
/-!
Work that emits nothing touches plans only. Whether specs are parsed, compiled without their tests or
checked, for each in turn its plan is written or nothing is done at all. So a file that is not as it
was is the plan of a spec, or it was the draft of one and is gone.
-/
namespace Acceptance.Project

open Script

/-! One plan is written. -/

/-- Where the plan of a spec is kept. -/
def planPath (plans : Path) (slug : String) : Path := plans.child (Emission.planFile slug)

section PlanPath

variable {plans plans' : Path} {slug slug' : String}

theorem proper_planPath : (planPath plans slug).Proper :=
  Path.proper_child (Part.plan.file_ne_up slug) _

theorem place_planPath : (planPath plans slug).place = plans.place ++ [Part.plan.file slug] :=
  Path.place_child (Part.plan.file_ne_up slug) _

theorem getLast?_planFile : (Part.plan.file slug).toList.getLast? = some 'n' :=
  Part.plan.getLast?_file slug

theorem slug_of_place (h : (planPath plans slug).place = (planPath plans slug').place) :
    slug = slug' := by
  rw [place_planPath, place_planPath, List.append_cancel_left_eq, List.singleton_inj] at h
  exact Part.file_injective h

theorem draftPlace_planPath_ne :
    (planPath plans slug).draftPlace ≠ (planPath plans' slug').place := by
  intro h
  rw [Path.draftPlace_eq, place_planPath] at h
  have hname := List.singleton_inj.1 (List.append_inj' h rfl).2
  have hlast := congrArg (fun n => n.toList.getLast?) hname
  simp only [toList_draftName, getLast?_planFile] at hlast
  simp [List.getLast?_cons] at hlast

theorem not_isSpecPlace_planPath : ¬IsSpecPlace (planPath plans slug).place := by
  rw [place_planPath]
  apply not_isSpecPlace
  rw [getLast?_planFile]
  decide

end PlanPath

/-- A file is written, its draft is away, and all other files are as they were. -/
structure Rewrites (t t' : Tree) (file : Path) (text : String) : Prop where
  there : t'.file? file.place = some (Text.encode text)
  gone : t'.file? file.draftPlace = none
  kept : t.KeepsAt (fun m => m ≠ file.place ∧ m ≠ file.draftPlace) t'

theorem rewrites_of_write {v v' : World} {file : Path} {text : String} (hproper : file.Proper)
    (hne : file.draftPlace ≠ file.place) (h : (writeGroup [(file, text)] []).Does v () v') :
    Rewrites v.tree v'.tree file text := by
  have hspares : (writeGroup [(file, text)] []).SparesAt
      fun m => m ≠ file.place ∧ m ≠ file.draftPlace := by
    refine asks_writeGroup (fun _ => trivial) (List.forall_mem_singleton.2 ?_) (by simp)
    exact ⟨fun _ _ => trivial, fun hm => hm.2 rfl, fun hm => hm.2 rfl,
      fun hm => hm.2 rfl, fun hm => hm.1 rfl⟩
  have hkept := hspares.keepsAt v
  rw [show (writeGroup [(file, text)] []).run v = (.ok (), v') from h] at hkept
  obtain ⟨v₁, hput, hremove⟩ := does_writeGroup.1 h
  obtain rfl := does_forM_nil.1 hremove
  have hapart : Apart [(file, text)] := ⟨by simpa using hproper, by simp, by simpa using hne⟩
  have hwrote := hput.wrote hapart
  have hmem : (file, text) ∈ [(file, text)] := List.mem_singleton_self _
  exact ⟨hwrote.target _ hmem, Tree.file?_of_none (hwrote.gone _ hmem), hkept⟩

/-! The turn of one spec. -/

/-- A spec that is found, and the path that its plan is kept under. -/
def PlanAt (root : Path) (settings : Settings) (w : World) (path file : Path) : Prop :=
  ∃ specs paths slug plans, Settings.place root settings.specsDir = .ok specs ∧
    (specFiles specs).Does w paths w ∧ path ∈ paths ∧ specSlug specs path = .ok slug ∧
    Settings.place root settings.planDir = .ok plans ∧ file = planPath plans slug

/-- The path is that of a file with what is made of a plan. -/
def Holds (made : Plan → Plan → Prop) (v : World) (file : Path) (plan : Plan) : Prop :=
  ∃ d text, made plan d ∧ Plan.write d.stored = .ok text ∧
    v.tree.file? file.place = some (Text.encode text)

/-- Nothing is done for a spec that cannot be read, and for any other its plan is written. -/
inductive Turn (root : Path) (settings : Settings) (made : Plan → Plan → Prop) (w : World)
    (path : Path) : World → World → Prop
  | rest {v : World} (h : ∀ plan, ¬(readPlan path (specName root path)).Does w plan w) :
    Turn root settings made w path v v
  | write {v v' : World} {file : Path} {plan d : Plan} {text : String}
    (hfile : PlanAt root settings w path file)
    (hplan : (readPlan path (specName root path)).Does w plan w) (hd : made plan d)
    (htext : Plan.write d.stored = .ok text) (h : (writeGroup [(file, text)] []).Does v () v') :
    Turn root settings made w path v v'

/-- Every file is as it was, or it is the plan of a spec that can be read, or the draft of such a
plan and is gone. -/
def TouchesPlans (root : Path) (settings : Settings) (made : Plan → Plan → Prop) (w v : World) :
    Prop :=
  ∀ m, v.tree.file? m = w.tree.file? m ∨ ∃ path file plan, PlanAt root settings w path file ∧
    (readPlan path (specName root path)).Does w plan w ∧
      (m = file.place ∧ Holds made v file plan ∨ m = file.draftPlace ∧ v.tree.file? m = none)

section Turns

variable {root path path' file file' specs : Path} {settings : Settings}
  {made : Plan → Plan → Prop} {w v v' : World} {plan : Plan} {paths : List Path}

namespace PlanAt

theorem eq_of_place (h : PlanAt root settings w path file) (h' : PlanAt root settings w path' file')
    (hplace : file.place = file'.place) : file = file' := by
  obtain ⟨-, -, slug, plans, -, -, -, -, hplans, rfl⟩ := h
  obtain ⟨-, -, slug', plans', -, -, -, -, hplans', rfl⟩ := h'
  obtain rfl := Except.ok.inj (hplans.symm.trans hplans')
  rw [slug_of_place hplace]

theorem unique (h : PlanAt root settings w path file) (h' : PlanAt root settings w path file') :
    file = file' := by
  obtain ⟨specs, -, slug, plans, hspecs, -, -, hslug, hplans, rfl⟩ := h
  obtain ⟨specs', -, slug', plans', hspecs', -, -, hslug', hplans', rfl⟩ := h'
  obtain rfl := Except.ok.inj (hspecs.symm.trans hspecs')
  obtain rfl := Except.ok.inj (hslug.symm.trans hslug')
  obtain rfl := Except.ok.inj (hplans.symm.trans hplans')
  rfl

theorem rewrites (h : PlanAt root settings w path file) {text : String}
    (hwrite : (writeGroup [(file, text)] []).Does v () v') : Rewrites v.tree v'.tree file text := by
  obtain ⟨-, -, slug, plans, -, -, -, -, -, rfl⟩ := h
  exact rewrites_of_write proper_planPath draftPlace_planPath_ne hwrite

theorem draftPlace_ne (h : PlanAt root settings w path file)
    (h' : PlanAt root settings w path' file') : file.draftPlace ≠ file'.place := by
  obtain ⟨-, -, slug, plans, -, -, -, -, -, rfl⟩ := h
  obtain ⟨-, -, slug', plans', -, -, -, -, -, rfl⟩ := h'
  exact draftPlace_planPath_ne

theorem not_isSpecPlace (h : PlanAt root settings w path file) :
    ¬IsSpecPlace file.place ∧ ¬IsSpecPlace file.draftPlace := by
  obtain ⟨-, -, slug, plans, -, -, -, -, -, rfl⟩ := h
  exact ⟨not_isSpecPlace_planPath, not_isSpecPlace_draftOf _⟩

end PlanAt

namespace Turn

theorem keepsSpecs (h : Turn root settings made w path v v') : v.tree.KeepsSpecs v'.tree := by
  cases h with
  | rest => exact .refl _
  | write hfile _ _ _ hwrite =>
    have hkept := (hfile.rewrites hwrite).kept
    refine ⟨hkept.dirs, fun m hm => hkept.files m ⟨?_, ?_⟩⟩
    · rintro rfl
      exact hfile.not_isSpecPlace.1 hm
    · rintro rfl
      exact hfile.not_isSpecPlace.2 hm

theorem touchesPlans (ht : TouchesPlans root settings made w v)
    (h : Turn root settings made w path v v') : TouchesPlans root settings made w v' := by
  cases h with
  | rest => exact ht
  | @write _ file plan d text hfile hplan hd htext hwrite =>
    have hrw := hfile.rewrites hwrite
    intro m
    by_cases hplace : m = file.place
    · exact .inr ⟨path, file, plan, hfile, hplan, .inl ⟨hplace, d, text, hd, htext, hrw.there⟩⟩
    by_cases hdraft : m = file.draftPlace
    · exact .inr ⟨path, file, plan, hfile, hplan, .inr ⟨hdraft, hdraft ▸ hrw.gone⟩⟩
    have hsame := hrw.kept.files m ⟨hplace, hdraft⟩
    -- what was true of the file before the turn is true of it still
    rcases ht m with hold | ⟨path', file', plan', hfile', hplan', hcase⟩
    · exact .inl (hsame.trans hold)
    · refine .inr ⟨path', file', plan', hfile', hplan', hcase.imp ?_ ?_⟩
      · rintro ⟨rfl, d', text', hd', htext', hthere⟩
        exact ⟨rfl, d', text', hd', htext', hsame.trans hthere⟩
      · rintro ⟨hm, hgone⟩
        exact ⟨hm, hsame.trans hgone⟩

theorem holds (hfile : PlanAt root settings w path file)
    (hplan : (readPlan path (specName root path)).Does w plan w)
    (h : Turn root settings made w path v v') : Holds made v' file plan := by
  cases h with
  | rest hnone => exact absurd hplan (hnone plan)
  | write hfile' hplan' hd htext hwrite =>
    obtain rfl := hfile.unique hfile'
    obtain ⟨rfl, -⟩ := hplan.unique hplan'
    exact ⟨_, _, hd, htext, (hfile.rewrites hwrite).there⟩

/-- A plan that no other spec shares is not touched in the turns of others. -/
theorem holds_of_holds (hfile : PlanAt root settings w path file)
    (hplan : (readPlan path (specName root path)).Does w plan w)
    (hown : ∀ path', PlanAt root settings w path' file → path' = path)
    (hold : Holds made v file plan) (h : Turn root settings made w path' v v') :
    Holds made v' file plan := by
  cases h with
  | rest => exact hold
  | @write _ file' _ _ _ hfile' hplan' hd htext hwrite =>
    have hrw := hfile'.rewrites hwrite
    by_cases hplace : file.place = file'.place
    · obtain rfl := hfile.eq_of_place hfile' hplace
      obtain rfl := hown _ hfile'
      exact holds hfile hplan (.write hfile' hplan' hd htext hwrite)
    · obtain ⟨d', text', hd', htext', hthere⟩ := hold
      refine ⟨d', text', hd', htext', (hrw.kept.files _ ⟨hplace, ?_⟩).trans hthere⟩
      exact (hfile'.draftPlace_ne hfile).symm

end Turn

/-- What work on all specs keeps, from what each turn keeps. -/
theorem turns {β : Type} {each : Path → Script β} {bs : List β}
    (hturn : ∀ path ∈ paths, ∀ v b v', w.tree.KeepsSpecs v.tree → (each path).Does v b v' →
      Turn root settings made w path v v')
    (hk : w.tree.KeepsSpecs v.tree) (ht : TouchesPlans root settings made w v)
    (h : (paths.mapM each).Does v bs v') :
    TouchesPlans root settings made w v' ∧
      ∀ path file plan, PlanAt root settings w path file →
        (readPlan path (specName root path)).Does w plan w →
        (∀ path', PlanAt root settings w path' file → path' = path) →
        path ∈ paths ∨ Holds made v file plan → Holds made v' file plan := by
  induction paths generalizing v bs with
  | nil =>
    obtain ⟨-, rfl⟩ := does_mapM_nil.1 h
    exact ⟨ht, fun _ _ _ _ _ _ hcase => hcase.resolve_left (by simp)⟩
  | cons p ps ih =>
    obtain ⟨b, rest, v₁, hfirst, hrest, -⟩ := does_mapM_cons.1 h
    obtain ⟨hp, hps⟩ := List.forall_mem_cons.1 hturn
    have hone := hp v b v₁ hk hfirst
    obtain ⟨htouch, hholds⟩ := ih hps (hk.trans hone.keepsSpecs) (hone.touchesPlans ht) hrest
    refine ⟨htouch, fun path file plan hfile hplan hown hcase => hholds path file plan hfile hplan hown ?_⟩
    -- A plan is there after the turn of its spec, and no later turn is that of a spec sharing it.
    rcases hcase with hmem | hold
    · rcases List.mem_cons.1 hmem with rfl | hmem
      · exact .inr (hone.holds hfile hplan)
      · exact .inl hmem
    · exact .inr (hone.holds_of_holds hfile hplan hown hold)

end Turns

/-! Commands that take turns. -/

section Commands

variable {root path specs : Path} {settings : Settings} {w v v' w' : World} {paths : List Path}
  {name : String} {plan : Plan} {r : Registry}

theorem does_attempt_read {α : Type} {f : Except FileError ByteArray → Outcome α} {o : Outcome α} :
    (ask (.read path) >>= fun reply => ofOutcome (f reply)).attempt.Does w o w' ↔
      f (replyOf w path) = o ∧ w = w' := by
  rw [attempt_ask_bind, does_bind]
  constructor
  · rintro ⟨reply, w₁, hread, h⟩
    cases (perform_read w path).symm.trans (does_ask.1 hread)
    exact does_done.1 h
  · rintro ⟨h, rfl⟩
    exact ⟨_, w, does_ask.2 (perform_read w path), does_done.2 ⟨h, rfl⟩⟩

theorem does_attempt_readPlan {o : Outcome Plan} : (readPlan path name).attempt.Does w o w' ↔
    planOf name (replyOf w path) = o ∧ w = w' := by
  rw [readPlan_eq]
  exact does_attempt_read

theorem does_readPlan : (readPlan path name).Does w plan w' ↔
    planOf name (replyOf w path) = .ok plan ∧ w = w' :=
  does_attempt.symm.trans does_attempt_readPlan

theorem does_attempt_readRegistry {o : Outcome Registry} : (readRegistry path).attempt.Does w o w' ↔
    registryOf path (replyOf w path) = o ∧ w = w' := by
  rw [readRegistry_eq]
  exact does_attempt_read

theorem Turn.of_error {made : Plan → Plan → Prop} {f : Fault}
    (h : planOf (specName root path) (replyOf w path) = .error f) :
    Turn root settings made w path v v := by
  refine .rest fun plan hplan => ?_
  rw [(does_readPlan.1 hplan).1] at h
  cases h

theorem turn_parseSpec (hs : w.tree.Sound)
    (hspecs : Settings.place root settings.specsDir = .ok specs)
    (hpaths : (specFiles specs).Does w paths w) (hpath : path ∈ paths)
    (hk : w.tree.KeepsSpecs v.tree) {parsed : Parsed}
    (h : (parseSpec root specs settings path).Does v parsed v') :
    Turn root settings (fun plan d => d = plan) w path v v' := by
  have hfound := (does_specFiles hs hpaths).2 path hpath
  obtain ⟨slug, hslug, h⟩ := does_ofFit_bind.1 h
  obtain ⟨o, _, hread, h⟩ := does_bind.1 h
  obtain ⟨ho, rfl⟩ := does_attempt_readPlan.1 hread
  rw [replyOf_of_keepsSpecs hk hs hfound] at ho
  cases o with
  | ok plan =>
    obtain ⟨text, htext, h⟩ := does_ofFit_bind.1 h
    obtain ⟨plans, hplans, h⟩ := does_ofFit_bind.1 h
    obtain ⟨_, hwrite, h⟩ := does_seq.1 h
    obtain ⟨-, rfl⟩ := does_pure.1 h
    exact .write ⟨specs, paths, slug, plans, hspecs, hpaths, hpath, hslug, hplans, rfl⟩
      (does_readPlan.2 ⟨ho, rfl⟩) rfl htext hwrite
  | error f =>
    cases f with
    | problem p =>
      obtain ⟨-, rfl⟩ := does_pure.1 h
      exact .of_error ho
    | _ => exact absurd h not_does_stop

/-- The first plan comes to the second by the registry of the project. -/
def ResolvesTo (root : Path) (settings : Settings) (w : World) (plan d : Plan) : Prop :=
  ∃ path r, Settings.place root settings.registry = .ok path ∧ (readRegistry path).Does w r w ∧
    plan.resolve r = .ok d

theorem turn_compileSpec (hs : w.tree.Sound)
    (hspecs : Settings.place root settings.specsDir = .ok specs)
    (hpaths : (specFiles specs).Does w paths w) (hpath : path ∈ paths)
    (hr : ∀ plan d, plan.resolve r = .ok d → ResolvesTo root settings w plan d)
    (hk : w.tree.KeepsSpecs v.tree) {report : FileReport String Nat}
    (h : (compileSpec root settings r false path).Does v report v') :
    Turn root settings (ResolvesTo root settings w) w path v v' := by
  have hfound := (does_specFiles hs hpaths).2 path hpath
  obtain ⟨specs', hspecs', h⟩ := does_ofFit_bind.1 h
  obtain rfl := Except.ok.inj (hspecs.symm.trans hspecs')
  obtain ⟨slug, hslug, h⟩ := does_ofFit_bind.1 h
  obtain ⟨tests, -, h⟩ := does_ofFit_bind.1 h
  obtain ⟨plans, hplans, h⟩ := does_ofFit_bind.1 h
  obtain ⟨o, _, hread, h⟩ := does_bind.1 h
  obtain ⟨ho, rfl⟩ := does_attempt_readPlan.1 hread
  rw [replyOf_of_keepsSpecs hk hs hfound] at ho
  cases o with
  | ok plan =>
    obtain ⟨d, hd, h⟩ := does_ofFit_bind.1 h
    obtain ⟨text, htext, h⟩ := does_ofFit_bind.1 h
    obtain ⟨_, hwrite, h⟩ := does_seq.1 h
    obtain ⟨-, rfl⟩ := does_pure.1 h
    exact .write ⟨specs, paths, slug, plans, hspecs, hpaths, hpath, hslug, hplans, rfl⟩
      (does_readPlan.2 ⟨ho, rfl⟩) (hr plan d hd) htext hwrite
  | error f =>
    cases f with
    | problem p =>
      obtain ⟨-, rfl⟩ := does_pure.1 h
      exact .of_error ho
    | _ => exact absurd h not_does_stop

/-- No file is touched but plans and their drafts, and the plan of every spec that can be read is
there, if no other spec shares it. -/
structure OnlyPlans (root : Path) (settings : Settings) (made : Plan → Plan → Prop) (w w' : World) :
    Prop where
  files : TouchesPlans root settings made w w'
  plans : ∀ path file plan d, PlanAt root settings w path file →
    (readPlan path (specName root path)).Does w plan w → made plan d →
    (∀ path', PlanAt root settings w path' file → path' = path) → Holds made w' file plan

theorem onlyPlans_parse (hs : w.tree.Sound) {parsed : List Parsed}
    (h : (parse root settings).Does w parsed w') :
    OnlyPlans root settings (fun plan d => d = plan) w w' := by
  obtain ⟨specs, hspecs, hrest⟩ := does_ofFit_bind.1 h
  obtain ⟨paths, w₁, hpaths, hturns⟩ := does_bind.1 hrest
  obtain rfl := (does_specFiles hs hpaths).1
  obtain ⟨htouch, hholds⟩ := turns
    (fun path hpath v _ v' hk hturn => turn_parseSpec hs hspecs hpaths hpath hk hturn)
    (.refl _) (fun _ => .inl rfl) hturns
  refine ⟨htouch, fun path file plan d hfile hplan _ hown => hholds path file plan hfile hplan hown ?_⟩
  obtain ⟨specs', paths', -, -, hspecs', hpaths', hpath, -⟩ := hfile
  obtain rfl := Except.ok.inj (hspecs.symm.trans hspecs')
  obtain ⟨rfl, -⟩ := hpaths.unique hpaths'
  exact .inl hpath

/-- A spec that shares its slug with no other owns it. -/
theorem mem_owners_of_unshared {specs : Path} {claims : List Claimant} {slug : String}
    (hclaims : claimants specs paths = .ok claims) (hpath : path ∈ paths)
    (hslug : specSlug specs path = .ok slug)
    (hown : ∀ path' ∈ paths, specSlug specs path' = .ok slug → path' = path) :
    path ∈ (owners [] claims).map (·.path) := by
  obtain ⟨c, hc, hclaim⟩ := exists_of_mem_forall₂ (mapM_eq_ok.1 hclaims).flip path hpath
  obtain ⟨slug', hslug', hclaim⟩ := bind_eq_ok.1 hclaim
  obtain rfl := Except.ok.inj (hslug.symm.trans hslug')
  cases hclaim
  obtain ⟨o, ho, hsame⟩ : ∃ o ∈ owners [] claims, o.slug = slug := exists_owner hc
  obtain ⟨hmem, hoslug⟩ :=
    slug_of_mem_claimants hclaims o ((mem_of_mem_owners ho).resolve_left (by simp))
  rw [hsame] at hoslug
  exact List.mem_map.2 ⟨o, ho, hown o.path hmem hoslug⟩

theorem compileAll_plans_eq {together : Bool}
    (hspecs : Settings.place root settings.specsDir = .ok specs)
    (hworkers : severalWorkers settings = .ok together) (r : Registry) :
    compileAll root settings r false = (do
      let paths ← specFiles specs
      let claims ← ofFit (claimants specs paths)
      let compiled ← several together (compileSpec root settings r false)
        ((owners [] claims).map (·.path))
      return { files := compiled ++ claims.filterMap (collision? root (owners [] claims)) }) := by
  simp only [compileAll, hspecs, hworkers, ofFit_ok, done_bind]
  refine congrArg (_ >>= ·) (funext fun paths => congrArg (_ >>= ·) (funext fun claims => ?_))
  unfold several
  cases together && decide (((owners [] claims).map (·.path)).length > 1) <;> rfl

theorem onlyPlans_compileAll (hs : w.tree.Sound)
    (hr : ∀ plan d, plan.resolve r = .ok d → ResolvesTo root settings w plan d)
    {report : Report String Nat} (h : (compileAll root settings r false).Does w report w') :
    OnlyPlans root settings (ResolvesTo root settings w) w w' := by
  obtain ⟨together, hworkers⟩ := exists_workers h
  obtain ⟨specs, hspecs, -⟩ := does_ofFit_bind.1 h
  rw [compileAll_plans_eq hspecs hworkers] at h
  obtain ⟨paths, w₁, hpaths, hrest⟩ := does_bind.1 h
  obtain rfl := (does_specFiles hs hpaths).1
  obtain ⟨claims, hclaims, hrest⟩ := does_ofFit_bind.1 hrest
  obtain ⟨compiled, _, hcompiled, hend⟩ := does_bind.1 hrest
  obtain ⟨-, rfl⟩ := does_pure.1 hend
  have hmem : ∀ path ∈ (owners [] claims).map (·.path), path ∈ paths := by
    refine List.forall_mem_map.2 fun c hc => ?_
    exact (slug_of_mem_claimants hclaims c ((mem_of_mem_owners hc).resolve_left (by simp))).1
  obtain ⟨htouch, hholds⟩ := turns
    (fun path hpath v _ v' hk hturn =>
      turn_compileSpec hs hspecs hpaths (hmem path hpath) hr hk hturn)
    (.refl _) (fun _ => .inl rfl) (does_several.1 hcompiled)
  refine ⟨htouch, fun path file plan d hfile hplan _ hown => hholds path file plan hfile hplan hown ?_⟩
  obtain ⟨specs', paths', slug, plans, hspecs', hpaths', hpath, hslug, hplans, rfl⟩ := hfile
  obtain rfl := Except.ok.inj (hspecs.symm.trans hspecs')
  obtain ⟨rfl, -⟩ := hpaths.unique hpaths'
  refine .inl (mem_owners_of_unshared hclaims hpath hslug fun path' hpath' hslug' => hown path' ?_)
  exact ⟨specs, paths, slug, plans, hspecs, hpaths, hpath', hslug', hplans, rfl⟩

theorem onlyPlans_compile (hs : w.tree.Sound) {report : Report String Nat}
    (h : (compile root settings false).Does w report w') :
    OnlyPlans root settings (ResolvesTo root settings w) w w' := by
  obtain ⟨path, hpath, hrest⟩ := does_ofFit_bind.1 h
  obtain ⟨o, w₁, hread, hrest⟩ := does_bind.1 hrest
  obtain ⟨ho, rfl⟩ := does_attempt_readRegistry.1 hread
  cases o with
  | ok r =>
    have hr : (readRegistry path).Does w r w := does_readRegistry.2 ⟨ho, rfl⟩
    exact onlyPlans_compileAll hs (fun plan d hd => ⟨path, r, hpath, hr, hd⟩) hrest
  | error f =>
    cases f with
    | problem p =>
      obtain ⟨-, rfl⟩ := does_pure.1 hrest
      refine ⟨fun _ => .inl rfl, fun _ _ plan d _ _ hmade _ => ?_⟩
      obtain ⟨path', r, hpath', hr, -⟩ := hmade
      obtain rfl := Except.ok.inj (hpath.symm.trans hpath')
      rw [(does_readRegistry.1 hr).1] at ho
      cases ho
    | _ => exact absurd hrest not_does_stop

/-- To parse, to compile without tests and to check touch no files but plans. -/
theorem only_plans_touched (root : Path) (hs : w.tree.Sound) :
    (∀ settings parsed w', (parse root settings).Does w parsed w' →
      OnlyPlans root settings (fun plan d => d = plan) w w') ∧
    (∀ settings report w', (compile root settings false).Does w report w' →
      OnlyPlans root settings (ResolvesTo root settings w) w w') ∧
    ∀ answer w', (Tools.check root).Does w answer w' →
      ∃ settings, (Settings.loadOrRefuse root).Does w settings w ∧
        OnlyPlans root settings (ResolvesTo root settings w) w w' := by
  refine ⟨fun _ _ _ => onlyPlans_parse hs, fun _ _ _ => onlyPlans_compile hs, fun answer w' h => ?_⟩
  obtain ⟨settings, w₁, hload, hrest⟩ := does_bind.1 h
  obtain ⟨-, rfl⟩ := does_loadOrRefuse.1 hload
  obtain ⟨report, w₂, hcompile, hend⟩ := does_bind.1 hrest
  obtain ⟨-, rfl⟩ := does_pure.1 hend
  exact ⟨settings, hload, onlyPlans_compile hs hcompile⟩

end Commands

/-! Two specs with one name for their outputs, where a draft of the plan was left behind. -/

def halfway : World := twins [([".gwt", "ir", ".a_b.json.tmp"], .file (Text.encode "half")), plansDir]

theorem sound_halfway : halfway.tree.Sound := by
  refine ⟨?_, ?_, ?_⟩
  all_goals simp [halfway, twins, plansDir, Tree.get?]

theorem does_specFiles_halfway :
    (specFiles (usual top).specs).Does halfway [owner.path, twin.path] halfway :=
  does_specFiles_of_sorted rfl rfl (by decide +kernel)

theorem does_plan_halfway {text : String} :
    ((Work.write [(.plan, text)] []).script (usual top) "a_b").Does halfway ()
      (twins (ownPlan text)) := by
  have hstage : (stage ((usual top).path .plan "a_b") text).Does halfway _
      (twins [([".gwt", "ir", ".a_b.json.tmp"], .file (Text.encode text)), plansDir]) := rfl
  exact does_writeGroup_one hstage rfl (does_forM_nil.2 rfl)

/-- The plan is written when the project is checked. -/
theorem exists_check_halfway : ∃ text answer,
    (Tools.check top).Does halfway answer (twins (ownPlan text)) := by
  obtain ⟨r, file, text, h⟩ := exists_planned
  obtain ⟨hnothing, -, hdrop⟩ | ⟨plan, d, text, hplan, hd, htext, -⟩ := workOf_cases h.work
  · cases hdrop
  have hwork : workOf r false "a_b" "specs/a-b.gwt"
      (planOf "specs/a-b.gwt" (.ok (Text.encode leapText))) =
        .ok (planReport d, .write [(.plan, text)] []) := by
    rw [hplan]
    exact workOf_eq_ok.2 ⟨d, text, hd, htext, rfl⟩
  let job : Job := ⟨"a_b", planReport d, .write [(.plan, text)] []⟩
  have hjob : jobOf top r false (replyOf halfway) owner = .ok job := jobOf_eq_ok.2 ⟨rfl, hwork⟩
  have hdecided : (owners [] [owner, twin]).mapM (jobOf top r false (replyOf halfway)) =
      .ok [job] := by
    rw [owners_twins]
    exact mapM_cons_eq_ok.2 ⟨job, [], hjob, rfl, rfl⟩
  have hall := (does_compileAll_iff (usual top) rfl sound_halfway).2 ⟨[owner, twin], [job], _,
    ⟨_, does_specFiles_halfway, claimants_twins⟩, hdecided,
    does_forM_cons.2 ⟨_, does_plan_halfway, does_forM_nil.2 rfl⟩, ⟨rfl, rfl⟩⟩
  have hreply : replyOf halfway (usual top).registry = .ok (Text.encode tallyText) := rfl
  have hcompile := (does_compile_iff (usual top)).2 (.inl ⟨r, hreply ▸ h.registry, hall⟩)
  have hload : (Settings.loadOrRefuse top).Does halfway {} halfway :=
    does_loadOrRefuse.2 ⟨settingsOf_usual, rfl⟩
  exact ⟨text, _, does_bind.2 ⟨_, _, hload, does_bind.2 ⟨_, _, hcompile, does_pure.2 ⟨rfl, rfl⟩⟩⟩⟩

theorem only_plans_touched_halfway : halfway.tree.Sound ∧ ∃ text answer settings,
    (Tools.check top).Does halfway answer (twins (ownPlan text)) ∧
    OnlyPlans top settings (ResolvesTo top settings halfway) halfway (twins (ownPlan text)) ∧
    halfway.tree.file? [".gwt", "ir", "a_b.json"] = none ∧
    (twins (ownPlan text)).tree.file? [".gwt", "ir", "a_b.json"] = some (Text.encode text) ∧
    halfway.tree.file? [".gwt", "ir", ".a_b.json.tmp"] = some (Text.encode "half") ∧
    (twins (ownPlan text)).tree.file? [".gwt", "ir", ".a_b.json.tmp"] = none := by
  obtain ⟨text, answer, hcheck⟩ := exists_check_halfway
  obtain ⟨-, -, hchecks⟩ := only_plans_touched top sound_halfway
  obtain ⟨settings, -, hplans⟩ := hchecks answer _ hcheck
  exact ⟨sound_halfway, text, answer, settings, hcheck, hplans, rfl, rfl, rfl, rfl⟩

end Acceptance.Project

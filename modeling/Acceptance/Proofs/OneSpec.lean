import Acceptance.Proofs.WorkAgain
import Acceptance.Tools
/-!
One spec by itself. After a project is compiled, to compile one of its specs with the tool for that
changes nothing, and gives what was reported of the spec. The tool does not ask who owns the output
names, so this is only so for specs that own theirs: others have the files of the owner replaced or
removed.
-/
namespace Acceptance

open Script Project Places

/-! Reading settings and specs. -/

section Reading

variable {root p : Path} {settings : Settings} {w w' v : World} {bytes : ByteArray}

theorem exists_read_of_stat {t : Tree} (h : t.stat p = .ok (some .file)) :
    ∃ bytes, t.read p = .ok bytes := by
  rw [Tree.stat] at h
  cases hentry : t.entry p with
  | error cause =>
    rw [hentry] at h
    cases cause <;> cases h
  | ok found =>
    obtain ⟨l, e⟩ := found
    rw [hentry] at h
    cases e with
    | dir => cases h
    | file bytes =>
      obtain ⟨hl, hget⟩ := Tree.entry_eq_ok.1 hentry
      exact ⟨bytes, Tree.read_eq_ok.2 ⟨l, hl, Tree.file?_eq_some.2 hget⟩⟩

theorem does_stat_of_replyOf (h : replyOf w p = .ok bytes) : (stat p).Does w (some .file) w := by
  rw [does_stat]
  rw [replyOf, World.look] at h
  cases hflaw : p.flaw? with
  | some flaw =>
    rw [hflaw] at h
    cases h
  | none =>
    rw [hflaw] at h
    obtain ⟨l, hl, hfile⟩ := Tree.read_eq_ok.1 (eq_ok_of_mapError h)
    rw [Tree.stat, Tree.entry_eq_ok.2 ⟨hl, Tree.file?_eq_some.1 hfile⟩]
    exact ⟨rfl, rfl⟩

/-- Files are what can be read. -/
theorem does_isFile_true : (isFile p).Does w true w' ↔ w = w' ∧ ∃ bytes, replyOf w p = .ok bytes := by
  constructor
  · intro h
    obtain ⟨k, w₁, hask, hpure⟩ := does_bind.1 h
    obtain ⟨rfl, hstat⟩ := does_stat.1 hask
    obtain ⟨hk, rfl⟩ := does_pure.1 hpure
    rw [of_decide_eq_true hk] at hstat
    refine ⟨rfl, ?_⟩
    cases hflaw : p.flaw? with
    | some flaw =>
      rw [hflaw] at hstat
      cases hstat
    | none =>
      rw [hflaw] at hstat
      obtain ⟨bytes, hread⟩ := exists_read_of_stat hstat
      refine ⟨bytes, ?_⟩
      rw [replyOf, World.look, hflaw, hread]
      rfl
  · rintro ⟨rfl, bytes, h⟩
    exact does_bind.2 ⟨some .file, w, does_stat_of_replyOf h, does_pure.2 ⟨rfl, rfl⟩⟩

theorem does_ifThere {α : Type} {k : Script α} {f : Fault} {a : α} :
    (isThere p >>= fun b => if b then k else stop f).Does w a w' ↔
      (isThere p).Does w true w ∧ k.Does w a w' := by
  constructor
  · intro h
    obtain ⟨b, w₁, hthere, h⟩ := does_bind.1 h
    have hsame : w = w₁ := by
      obtain ⟨k, w₂, hask, hpure⟩ := does_bind.1 hthere
      exact (does_stat.1 hask).1.trans (does_pure.1 hpure).2
    subst hsame
    cases b with
    | false => exact absurd h not_does_stop
    | true => exact ⟨hthere, h⟩
  · intro ⟨hthere, h⟩
    exact does_bind.2 ⟨true, w, hthere, h⟩

/-- The settings in a file, from what reading the file gives. -/
def settingsOf (reply : Except FileError ByteArray) : Outcome Settings :=
  (textIn reply >>= fun text => (Json.read text).mapError .ofJson) >>= fun v =>
    Value.orFault (Settings.ofValue v)

theorem exists_bytes_of_settingsOf {reply : Except FileError ByteArray}
    (h : settingsOf reply = .ok settings) : ∃ bytes, reply = .ok bytes := by
  cases reply with
  | ok bytes => exact ⟨bytes, rfl⟩
  | error e => cases h

theorem does_loadOrRefuse : (Settings.loadOrRefuse root).Does w settings w' ↔
    settingsOf (replyOf w (Settings.file root)) = .ok settings ∧ w = w' := by
  have hload : (readJson (Settings.file root) >>= fun v => ofFit (Settings.ofValue v)) =
      ask (.read (Settings.file root)) >>= fun reply => ofOutcome (settingsOf reply) := by
    rw [readJson_eq, bind_assoc]
    exact congrArg (_ >>= ·) (funext fun reply => (ofOutcome_bind _ _).symm)
  have hscript : Settings.loadOrRefuse root = (isThere (Settings.file root) >>= fun b =>
      if b then (isThere (Settings.file root) >>= fun b =>
        if b then readJson (Settings.file root) >>= fun v => ofFit (Settings.ofValue v)
        else stop (.noConfig (Settings.file root).text)) else stop .notInitialized) := rfl
  rw [hscript, does_ifThere, does_ifThere, hload, does_ask_read]
  constructor
  · exact fun h => h.2.2
  · intro h
    obtain ⟨bytes, hbytes⟩ := exists_bytes_of_settingsOf h.1
    have hthere : (isThere (Settings.file root)).Does w true w :=
      does_bind.2 ⟨some .file, w, does_stat_of_replyOf hbytes, does_pure.2 ⟨rfl, rfl⟩⟩
    exact ⟨hthere, hthere, h⟩

/-- Settings that can be read are read again where their file is kept. -/
theorem settingsOf_of_ok (h : settingsOf (replyOf w p) = .ok settings)
    (hdirs : ∀ m ∈ Tree.passed [] p.names, w.tree.get? m = some .dir → v.tree.get? m = some .dir)
    (hfile : v.tree.file? p.place = w.tree.file? p.place) :
    settingsOf (replyOf v p) = .ok settings := by
  obtain ⟨bytes, hbytes⟩ := exists_bytes_of_settingsOf h
  rw [replyOf_of_ok hbytes hdirs hfile, ← hbytes, h]

end Reading

/-! The tool. -/

section Tool

variable {root path : Path} {settings : Settings} {r : Registry} {input slug : String}
  {w w' v : World} {file : FileReport String Nat}

theorem does_resolve (h : (Tools.resolve (root.join (.ofText input))).Does w path w') (v : World) :
    (Tools.resolve (root.join (.ofText input))).Does v path v := by
  unfold Tools.resolve at h ⊢
  split at h
  · exact absurd h not_does_stop
  · exact does_pure.2 ⟨(does_pure.1 h).1, rfl⟩

theorem does_isSpec (s : Places root settings) (hfile : (isFile path).Does w true w)
    (hslug : specSlug s.specs path = .ok slug) : (Tools.isSpec root settings path).Does w true w := by
  have hbelow : (path.relativeTo? s.specs).isSome := by
    rw [specSlug] at hslug
    cases hrest : path.relativeTo? s.specs with
    | none =>
      rw [hrest] at hslug
      cases hslug
    | some p => rfl
  refine does_bind.2 ⟨true, w, hfile, does_bind.2 ⟨s.specs, w, ?_, does_pure.2 ⟨hbelow, rfl⟩⟩⟩
  exact does_ofFit.2 ⟨s.specs_eq, rfl⟩

/-- A spec of the project is compiled, and its report given. -/
theorem does_toolCompile (s : Places root settings)
    (hsettings : (Settings.loadOrRefuse root).Does w settings w)
    (hinput : (Tools.resolve (root.join (.ofText input))).Does w path w)
    (hfile : (isFile path).Does w true w) (hslug : specSlug s.specs path = .ok slug)
    (hr : (readRegistry s.registry).Does w r w)
    (h : (compileSpec root settings r true path).Does w file w') :
    (Tools.compile root input).Does w (Tools.withOk file.record file.errors.isEmpty) w' := by
  refine does_bind.2 ⟨settings, w, hsettings, does_bind.2 ⟨path, w, hinput, ?_⟩⟩
  refine does_bind.2 ⟨true, w, does_isSpec s hfile hslug, ?_⟩
  refine does_bind.2 ⟨s.registry, w, does_ofFit.2 ⟨s.registry_eq, rfl⟩, ?_⟩
  refine does_bind.2 ⟨.ok r, w, does_attempt.2 hr, ?_⟩
  exact does_bind.2 ⟨file, w', h, does_pure.2 ⟨rfl, rfl⟩⟩

end Tool

namespace Project

variable {root : Path} {settings : Settings} {s : Places root settings} {r : Registry} {w w' : World}
  {specs : List Claimant} {report : Report String Nat} {c : Claimant} {input : String}

theorem mem_zip_append {α β : Type} {as : List α} {bs : List β} {x : α × β} (h : x ∈ as.zip bs)
    (rest : List β) : x ∈ as.zip (bs ++ rest) := by
  induction as generalizing bs with
  | nil => cases h
  | cons a as ih =>
    cases bs with
    | nil => cases h
    | cons b bs =>
      rcases List.mem_cons.1 h with rfl | h
      · exact .head _
      · exact .tail _ (ih h)

/-- No spec is among the files that are made of specs. -/
theorem keepsSpecs_of_keepsAt {t u : Tree} (h : t.KeepsAt (fun m => ∀ slug, ¬s.Own slug m) u) :
    t.KeepsSpecs u := by
  refine ⟨h.dirs, fun m hm => h.files m fun slug hown => ?_⟩
  obtain ⟨part, rfl | rfl⟩ := hown
  · exact not_isSpecPlace_path part hm
  · exact not_isSpecPlace_draftOf _ hm

/-- After a project is compiled, compiling one of its specs changes nothing and gives what was
reported of it. -/
theorem compile_one_after_all (s : Places root settings) (hne : s.plans.place ≠ s.tests.place)
    (hw : w.tree.Sound) (hsettings : (Settings.loadOrRefuse root).Does w settings w)
    (hr : (readRegistry s.registry).Does w r w)
    (hhome : ∀ p ∈ [Settings.file root, s.registry], ∀ slug, ¬s.Own slug p.place)
    (hway : s.Straight w.tree) {paths : List Path} (hpaths : (specFiles s.specs).Does w paths w)
    (hspecs : claimants s.specs paths = .ok specs)
    (h : (compile root settings true).Does w report w') (hc : c ∈ specs)
    (hfree : collision? root (owners [] specs) c = none) (hfits : s.Fits c.slug)
    (hfile : (isFile c.path).Does w true w)
    (hinput : (Tools.resolve (root.join (.ofText input))).Does w c.path w) :
    ∃ file w'', (c, file) ∈ (owners [] specs).zip report.files ∧
      (Tools.compile root input).Does w' (Tools.withOk file.record file.errors.isEmpty) w'' ∧
      ∀ m, w''.tree.get? m = w'.tree.get? m := by
  obtain ⟨jobs, w₁, hrun⟩ := exists_run_of_compile s hw hr hpaths hspecs h
  have howner := mem_owners_of_collision? hc hfree
  obtain ⟨j, hj, hjob, hzip⟩ := exists_mem_zip hrun.decided howner
  obtain ⟨hfound, hspec⟩ := found_of_mem_owners hw hpaths hspecs c howner
  rw [← (jobOf_eq_ok.1 hjob).1] at hfits
  obtain ⟨w'', hdone, hsame⟩ := hrun.again hne hw hway hj hfits
  have hkeeps := hrun.keepsOthers
  have hkept (p : Path) (hp : p ∈ [Settings.file root, s.registry]) :
      w'.tree.file? p.place = w.tree.file? p.place := hkeeps.files _ (hhome p hp)
  have hreply : replyOf w' c.path = replyOf w c.path :=
    replyOf_of_keepsSpecs (keepsSpecs_of_keepsAt hkeeps) hw hfound
  have hcompiled : (compileSpec root settings r true c.path).Does w' j.report w'' :=
    (does_compileSpec hspec).2 ⟨j, (jobOf_congr hreply).trans hjob, rfl, hdone⟩
  have hregistry : (readRegistry s.registry).Does w' r w' := by
    refine does_readRegistry.2 ⟨?_, rfl⟩
    exact registryOf_of_ok (does_readRegistry.1 hr).1 (fun m _ => hkeeps.dirs m)
      (hkept _ (.tail _ (.head _)))
  have hloaded : (Settings.loadOrRefuse root).Does w' settings w' := by
    refine does_loadOrRefuse.2 ⟨?_, rfl⟩
    exact settingsOf_of_ok (does_loadOrRefuse.1 hsettings).1 (fun m _ => hkeeps.dirs m)
      (hkept _ (.head _))
  have hthere : (isFile c.path).Does w' true w' := by
    obtain ⟨-, bytes, hbytes⟩ := does_isFile_true.1 hfile
    exact does_isFile_true.2 ⟨rfl, bytes, hreply.trans hbytes⟩
  refine ⟨j.report, w'', ?_, ?_, hsame⟩
  · rw [(hrun.ended.files s).1]
    exact mem_zip_append hzip _
  · exact does_toolCompile s hloaded (does_resolve hinput w') hthere hspec hregistry hcompiled

/-! Two specs with one name for their outputs. -/

/-- The root of the file tree. -/
def top : Path := ⟨1, []⟩

/-- A project with the usual settings and two specs, the second of them no text, and with some files
that are made. -/
def twins (made : List (Location × Entry)) : World where
  tree := ⟨made ++ [([".gwt"], .dir), ([".gwt", "config.json"], .file (Text.encode "\x7b\x7d")),
    (["specs"], .dir), (["specs", "operations.yaml"], .file (Text.encode tallyText)),
    (["specs", "a-b.gwt"], .file (Text.encode leapText)), (["specs", "a_b.gwt"], .file ⟨#[0xff]⟩)]⟩

def plansDir : Location × Entry := ([".gwt", "ir"], .dir)

/-- The plan of the spec that owns the name. -/
def ownPlan (text : String) : List (Location × Entry) :=
  [([".gwt", "ir", "a_b.json"], .file (Text.encode text)), plansDir]

def owner : Claimant := ⟨(usual top).specs.child "a-b.gwt", "a_b"⟩

def twin : Claimant := ⟨(usual top).specs.child "a_b.gwt", "a_b"⟩

theorem sound_twins : (twins []).tree.Sound := by
  refine ⟨?_, ?_, ?_⟩
  all_goals simp [twins, Tree.get?]

theorem settingsOf_usual : settingsOf (.ok (Text.encode "\x7b\x7d")) = .ok {} := rfl

theorem does_specFiles_twins :
    (specFiles (usual top).specs).Does (twins []) [owner.path, twin.path] (twins []) :=
  does_specFiles_of_sorted rfl rfl (by decide +kernel)

theorem claimants_twins : claimants (usual top).specs [owner.path, twin.path] = .ok [owner, twin] := rfl

theorem owners_twins : owners [] [owner, twin] = [owner] := by decide +kernel

theorem straight_top (t : Tree) : (usual top).Straight t := by
  intro part
  apply Tree.straight_of_not_mem
  cases part <;> decide +kernel

theorem fits_twins : (usual top).Fits "a_b" := by
  refine ⟨fun part => ?_, ?_⟩
  · cases part
    all_goals exact ⟨⟨rfl, by decide, by decide⟩, ⟨rfl, by decide, by decide⟩⟩
  · rintro m ⟨part, rfl | rfl⟩ ⟨part', hl⟩
    all_goals
      revert hl
      cases part <;> cases part' <;> decide +kernel

/-- Neither the settings nor the registry is among the files that are made of specs. -/
theorem not_own_home : ∀ p ∈ [Settings.file top, (usual top).registry], ∀ slug,
    ¬(usual top).Own slug p.place := by
  intro p hp slug hown
  have hlength : p.place.length = 2 := by
    rcases List.mem_pair.1 hp with rfl | rfl <;> decide +kernel
  obtain ⟨part, hplace⟩ := hown
  have hdir : ((usual top).dir part).place.length = 2 := by cases part <;> decide +kernel
  rcases hplace with hplace | hplace
  · rw [hplace, place_path, List.length_append, hdir] at hlength
    cases hlength
  · rw [hplace, Path.draftPlace_eq, parent_path, List.length_append, hdir] at hlength
    cases hlength

section Twins

variable {text : String}

/-- The plan of the owner is written. -/
theorem does_owner :
    ((planWork text).script (usual top) "a_b").Does (twins []) () (twins (ownPlan text)) :=
  does_planWork rfl
    (twins [([".gwt", "ir", ".a_b.json.tmp"], .file (Text.encode text)), plansDir]) rfl rfl rfl rfl

theorem file?_ownPlan :
    (twins (ownPlan text)).tree.file? [".gwt", "ir", "a_b.json"] = some (Text.encode text) := rfl

/-- For the other spec that plan is removed. -/
theorem does_twin (htext : IsPlanBytes (Text.encode text)) :
    (Work.drop.script (usual top) "a_b").Does (twins (ownPlan text)) () (twins [plansDir]) := by
  refine does_drop.2 ⟨true, planFileOf_of_isPlanBytes htext, does_writeGroup_nil.2 ?_⟩
  refine does_forM_cons.2 ⟨_, rfl, does_forM_cons.2 ⟨_, rfl, ?_⟩⟩
  exact does_forM_cons.2 ⟨twins [plansDir], rfl, does_forM_nil.2 rfl⟩

/-- What is told of the spec that does not own the name. -/
def twinReport : FileReport String Nat :=
  { FileReport.blank "specs/a_b.gwt" with
    errors := [.sharedOutput "specs/a_b.gwt" "a_b" "specs/a-b.gwt"] }

/-- What is told of it when it is compiled by itself. -/
def spoiledReport : FileReport String Nat :=
  { FileReport.blank "specs/a_b.gwt" with errors := [atFirstLine "specs/a_b.gwt" .notUtf8] }

/-- What is decided on for the owner. -/
structure Planned (r : Registry) (file : FileReport String Nat) (text : String) : Prop where
  registry : registryOf (usual top).registry (.ok (Text.encode tallyText)) = .ok r
  work : workOf r true "a_b" "specs/a-b.gwt" (planOf "specs/a-b.gwt" (.ok (Text.encode leapText))) =
    .ok (file, planWork text)

theorem exists_planned : ∃ r file text, Planned r file text := by
  have hr : registryOf (usual top).registry (.ok (Text.encode tallyText)) = .ok (tallied top) :=
    eq_ok_of_toOption (by decide +kernel)
  obtain ⟨file, text, -, hwork⟩ := exists_plan_work (tallied top) "a_b" "specs/a-b.gwt"
    (.ok (Text.encode leapText)) (by decide +kernel)
  exact ⟨tallied top, file, text, hr, hwork⟩

namespace Planned

variable {r : Registry} {file : FileReport String Nat}

theorem does_compile (h : Planned r file text) : (compile top {} true).Does (twins [])
    { files := [file, twinReport] } (twins (ownPlan text)) := by
  let job : Job := ⟨"a_b", file, planWork text⟩
  have hjob : jobOf top r true (replyOf (twins [])) owner = .ok job := jobOf_eq_ok.2 ⟨rfl, h.work⟩
  have hcollision : [owner, twin].filterMap (collision? top (owners [] [owner, twin])) =
      [twinReport] := by
    rw [owners_twins]
    rfl
  have htests : (pruneTests (usual top).tests ([job].filterMap (·.report.output))).Does
      (twins (ownPlan text)) [] (twins (ownPlan text)) :=
    does_bind.2 ⟨false, _, rfl, does_pure.2 ⟨rfl, rfl⟩⟩
  have hplans : (prunePlans (usual top).plans ["a_b.json"]).Does
      (twins (ownPlan text)) () (twins (ownPlan text)) := by
    have hchildren : (childrenNamed "" ".json" (usual top).plans).Does (twins (ownPlan text))
        [(usual top).path .plan "a_b"] (twins (ownPlan text)) := by
      refine does_bind.2 ⟨[(["a_b.json"], .file)], _, does_listBelow.2 ⟨rfl, rfl⟩, ?_⟩
      exact does_pure.2 ⟨List.mergeSort_singleton _, rfl⟩
    refine does_bind.2 ⟨true, _, rfl, does_bind.2 ⟨_, _, hchildren, ?_⟩⟩
    exact does_forM_cons.2 ⟨_, rfl, does_forM_nil.2 rfl⟩
  refine (does_compile_iff (usual top)).2 (.inl ⟨r, h.registry,
    (does_compileAll_iff (usual top) rfl sound_twins).2 ⟨[owner, twin], [job], _,
      ⟨_, does_specFiles_twins, claimants_twins⟩, ?_,
      does_forM_cons.2 ⟨_, does_owner, does_forM_nil.2 rfl⟩, ?_⟩⟩)
  · rw [owners_twins]
    exact mapM_cons_eq_ok.2 ⟨job, [], hjob, rfl, rfl⟩
  · refine (finishes_iff ?_).2 ⟨[], _, htests, hplans, ?_⟩
    · rw [owners_twins]
      rfl
    · rw [hcollision]
      rfl

end Planned

/-- The owner of the name is compiled again, and all stays as it is. -/
theorem compile_one_after_all_owner : ∃ r file w' w'',
    (usual top).plans.place ≠ (usual top).tests.place ∧
    (Settings.loadOrRefuse top).Does (twins []) {} (twins []) ∧
    (readRegistry (usual top).registry).Does (twins []) r (twins []) ∧
    (compile top {} true).Does (twins []) { files := [file, twinReport] } w' ∧
    w'.tree.file? [".gwt", "ir", "a_b.json"] ≠ none ∧
    (Tools.compile top "specs/a-b.gwt").Does w' (Tools.withOk file.record file.errors.isEmpty) w'' ∧
    ∀ m, w''.tree.get? m = w'.tree.get? m := by
  obtain ⟨r, file, text, h⟩ := exists_planned
  have hne : (usual top).plans.place ≠ (usual top).tests.place := by decide +kernel
  have hsettings : (Settings.loadOrRefuse top).Does (twins []) {} (twins []) :=
    does_loadOrRefuse.2 ⟨settingsOf_usual, rfl⟩
  have hregistry : (readRegistry (usual top).registry).Does (twins []) r (twins []) :=
    does_readRegistry.2 ⟨h.registry, rfl⟩
  have hinput : (Tools.resolve (top.join (.ofText "specs/a-b.gwt"))).Does (twins []) owner.path
      (twins []) := rfl
  have hfile : (isFile owner.path).Does (twins []) true (twins []) := rfl
  have hfree : collision? top (owners [] [owner, twin]) owner = none := by
    rw [owners_twins]
    rfl
  obtain ⟨entry, w'', hentry, hagain, hsame⟩ := compile_one_after_all (usual top) hne sound_twins
    hsettings hregistry not_own_home (straight_top _) does_specFiles_twins claimants_twins
    h.does_compile (.head _) hfree fits_twins hfile hinput
  rw [owners_twins] at hentry
  obtain rfl : entry = file := by
    have hentry : (owner, entry) ∈ [(owner, file)] := hentry
    simpa using hentry
  refine ⟨r, entry, _, w'', hne, hsettings, hregistry, h.does_compile, ?_, hagain, hsame⟩
  rw [file?_ownPlan]
  exact Option.some_ne_none _

/-- The spec that does not own the name is compiled by itself: the plan of the owner is removed, and
what is told of the spec is not what was reported. -/
theorem plan_of_owner_removed : ∃ file w' answer w'',
    (specFiles (usual top).specs).Does (twins []) [owner.path, twin.path] (twins []) ∧
    claimants (usual top).specs [owner.path, twin.path] = .ok [owner, twin] ∧
    collision? top (owners [] [owner, twin]) twin = some twinReport ∧
    (compile top {} true).Does (twins []) { files := [file, twinReport] } w' ∧
    (Tools.compile top "specs/a_b.gwt").Does w' answer w'' ∧
    answer ≠ Tools.withOk twinReport.record twinReport.errors.isEmpty ∧
    w'.tree.file? [".gwt", "ir", "a_b.json"] ≠ none ∧
    w''.tree.file? [".gwt", "ir", "a_b.json"] = none := by
  obtain ⟨r, file, text, h⟩ := exists_planned
  have htext : IsPlanBytes (Text.encode text) := (marked_of_workOf h.work).bears _ (.head _)
  let job : Job := ⟨"a_b", spoiledReport, .drop⟩
  have hjob : jobOf top r true (replyOf (twins (ownPlan text))) twin = .ok job :=
    jobOf_eq_ok.2 ⟨rfl, congrArg (workOf r true "a_b" "specs/a_b.gwt") (planOf_spoiled _)⟩
  have hcompiled : (compileSpec top {} r true twin.path).Does (twins (ownPlan text)) spoiledReport
      (twins [plansDir]) :=
    (does_compileSpec (s := usual top) (c := twin) rfl).2 ⟨job, hjob, rfl, does_twin htext⟩
  have hsettings : (Settings.loadOrRefuse top).Does (twins (ownPlan text)) {} (twins (ownPlan text)) :=
    does_loadOrRefuse.2 ⟨settingsOf_usual, rfl⟩
  have hinput : (Tools.resolve (top.join (.ofText "specs/a_b.gwt"))).Does (twins (ownPlan text))
      twin.path (twins (ownPlan text)) := rfl
  have htool := does_toolCompile (usual top) hsettings hinput rfl rfl
    (does_readRegistry.2 ⟨h.registry, rfl⟩) hcompiled
  refine ⟨file, _, _, _, does_specFiles_twins, claimants_twins, ?_, h.does_compile, htool, ?_, ?_, rfl⟩
  · rw [owners_twins]
    rfl
  · simp [Tools.withOk, FileReport.record, Value.record, twinReport, spoiledReport, Problem.record,
      Problem.stage, Stage.name, atFirstLine, FileReport.blank]
  · rw [file?_ownPlan]
    exact Option.some_ne_none _

end Twins

end Project

end Acceptance

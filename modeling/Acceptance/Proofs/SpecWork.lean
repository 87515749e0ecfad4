import Acceptance.Project.Compile
import Acceptance.Proofs.Site
/-!
What compiling a spec comes to: a report, and some work on the files of the spec. Both depend only on
what is read from the spec. The work is done after all else, so a spec at fault leaves no trace.
-/
namespace Acceptance.Project

open Script

variable {α : Type} {w w' : World} {r : Registry} {emit : Bool}

/-- The plan in the file of a spec, from what reading the file gives. -/
def planOf (name : String) (reply : Except FileError ByteArray) : Outcome Plan :=
  let spec : Outcome Spec :=
    match reply with
    | .ok bytes => specOfBytes name bytes
    | .error (.os e) => .error (.problem (atFirstLine name (.unreadable e.cause.text)))
    | .error e => .error (.ofFile e)
  spec >>= fun s => (Plan.ofSpec s).mapError fun e => .problem (.plan e)

theorem ofOutcome_bind {β : Type} (x : Outcome α) (f : α → Outcome β) :
    ofOutcome (x >>= f) = ofOutcome x >>= fun a => ofOutcome (f a) := by
  cases x <;> rfl

theorem attempt_ask_bind (op : Op) (f : op.Reply → Outcome α) :
    (ask op >>= fun reply => ofOutcome (f reply)).attempt = ask op >>= fun reply => done (f reply) := by
  refine congrArg (call op) (funext fun reply => ?_)
  change (ofOutcome (f reply)).attempt = done (f reply)
  cases f reply <;> rfl

theorem readPlan_eq (path : Path) (name : String) :
    readPlan path name = ask (.read path) >>= fun reply => ofOutcome (planOf name reply) := by
  simp only [readPlan, readSpec, planOf, ofOutcome_bind, bind_assoc]
  refine congrArg (_ >>= ·) (funext fun reply => ?_)
  rcases reply with (_ | _) | _ <;> rfl

theorem attempt_readPlan (path : Path) (name : String) :
    (readPlan path name).attempt = ask (.read path) >>= fun reply => done (planOf name reply) := by
  rw [readPlan_eq]
  exact attempt_ask_bind ..

/-- What reading a file gives. -/
def replyOf (w : World) (p : Path) : Except FileError ByteArray := (w.look p (w.tree.read p)).1

theorem perform_read (w : World) (p : Path) : (Op.read p).perform w = (replyOf w p, w) :=
  Prod.ext rfl (w.look_snd p _)

theorem replyOf_eq_ok {p : Path} {bytes : ByteArray} (h : replyOf w p = .ok bytes) :
    w.tree.read p = .ok bytes := by
  unfold replyOf World.look at h
  split at h
  · cases h
  · exact eq_ok_of_mapError h

/-- Work on the files of a spec. -/
inductive Work
  | write (files : List (Part × String)) (stale : List Part)
  | drop
  | rest

def Work.script {root : Path} {settings : Settings} (s : Places root settings) (slug : String) :
    Work → Script Unit
  | .write files stale =>
    writeGroup (files.map fun f => (s.path f.1 slug, f.2)) (stale.map (s.path · slug))
  | .drop => dropOutputs (.ofSlug s.tests s.plans slug)
  | .rest => pure ()

/-- The parts of a module. -/
def testParts : Option Emission.TestModule → List (Part × String)
  | none => []
  | some m => [(.tests, m.code), (.manifest, m.manifestText)]

/-- Report and work for a spec, from what reading it gives. -/
def workOf (r : Registry) (emit : Bool) (slug name : String) :
    Outcome Plan → Outcome (FileReport String Nat × Work)
  | .ok plan => do
    let d ← Value.orFault (plan.resolve r)
    let text ← Value.orFault (Plan.write d.stored)
    if emit then
      let compiled ← emitted r slug d
      return (compiled.report, .write ((.plan, text) :: testParts compiled.tests) [.tests, .manifest])
    else return (planReport d, .write [(.plan, text)] [])
  | .error (.problem p) =>
    .ok ({ FileReport.blank name with errors := [p] }, if emit then .drop else .rest)
  | .error f => .error f

theorem orFault_eq_ok {x : Except Misfit α} {a : α} : Value.orFault x = .ok a ↔ x = .ok a := by
  cases x <;> simp [Value.orFault, Except.mapError]

variable {name : String} {made : FileReport String Nat × Work}

/-- A plan that is resolved and can be written comes to a module or to nothing more. -/
theorem workOf_eq_ok {slug : String} {plan : Plan} : workOf r emit slug name (.ok plan) = .ok made ↔
      ∃ d text, plan.resolve r = .ok d ∧ Plan.write d.stored = .ok text ∧
        if emit then ∃ compiled, emitted r slug d = .ok compiled ∧
          made = (compiled.report, .write ((.plan, text) :: testParts compiled.tests) [.tests, .manifest])
        else made = (planReport d, .write [(.plan, text)] []) := by
  have hpure (a : FileReport String Nat × Work) : (pure a : Outcome _) = .ok made ↔ made = a := by
    rw [show (pure a : Outcome _) = .ok a from rfl, Except.ok.injEq, eq_comm]
  cases emit <;> simp only [workOf, bind_eq_ok, orFault_eq_ok, hpure, if_true, Bool.false_eq_true,
    if_false, exists_and_left]

/-- There is a module just if a scenario is ready. -/
theorem emitted_cases {slug : String} {plan : Plan} {compiled : Compiled}
    (h : emitted r slug plan = .ok compiled) :
    compiled = ⟨planReport plan, none⟩ ∨
      ∃ m, Emission.testModule r plan.stored slug plan.ready.stored.scenarios = .ok m ∧
        compiled = ⟨{ planReport plan with emitted := m.tests.length, output := some m.file }, some m⟩ := by
  unfold emitted at h
  dsimp only at h
  split at h
  · exact .inl (Except.ok.inj h).symm
  · obtain ⟨m, hm, hmade⟩ := bind_eq_ok.1 h
    exact .inr ⟨m, hm, (Except.ok.inj hmade).symm⟩

/-- What compiling a spec comes to: nothing, a plan, or a plan with a module and its manifest, which
the report tells of. -/
theorem workOf_cases {slug : String} {o : Outcome Plan} (h : workOf r true slug name o = .ok made) :
    (made.1.parsed = 0 ∧ made.1.output = none ∧ made.2 = .drop) ∨
    ∃ (plan d : Plan) (text : String), o = .ok plan ∧ plan.resolve r = .ok d ∧
      Plan.write d.stored = .ok text ∧
      ((made.1.output = none ∧ made.2 = .write [(.plan, text)] [.tests, .manifest]) ∨
      ∃ m, Emission.testModule r d.stored slug d.ready.stored.scenarios = .ok m ∧
        made.1.output = some m.file ∧ made.2 =
          .write [(.plan, text), (.tests, m.code), (.manifest, m.manifestText)] [.tests, .manifest]) := by
  cases o with
  | error f =>
    cases f with
    | problem p =>
      cases h
      exact .inl ⟨rfl, rfl, rfl⟩
    | _ => cases h
  | ok plan =>
    obtain ⟨d, text, hd, htext, compiled, hcompiled, rfl⟩ := workOf_eq_ok.1 h
    refine .inr ⟨plan, d, text, rfl, hd, htext, ?_⟩
    rcases emitted_cases hcompiled with rfl | ⟨m, hm, rfl⟩
    · exact .inl ⟨rfl, rfl⟩
    · exact .inr ⟨m, hm, rfl, rfl⟩

theorem ofFit_ok (a : α) : ofFit (.ok a) = done a := rfl

section Scripts

variable {root path : Path} {settings : Settings} (s : Places root settings) {slug : String}

theorem path_testParts (tests : Option Emission.TestModule) :
    (testParts tests).map (fun f => (s.path f.1 slug, f.2)) =
      testFiles (.ofSlug s.tests s.plans slug) tests := by
  cases tests <;> rfl

theorem writeOutputs_eq (r : Registry) (emit : Bool) (name : String) (plan : Plan) :
    writeOutputs r emit slug (.ofSlug s.tests s.plans slug) plan = (do
      let made ← ofOutcome (workOf r emit slug name (.ok plan))
      made.2.script s slug
      return made.1) := by
  cases emit with
  | false =>
    simp only [writeOutputs, workOf, ofFit, ofOutcome_bind, bind_assoc]
    rfl
  | true =>
    simp only [writeOutputs, workOf, ofFit, ofOutcome_bind, bind_assoc, ← path_testParts, if_true]
    rfl

/-- A spec is read, then all is decided, then its files are worked on. -/
theorem compileSpec_eq (hslug : specSlug s.specs path = .ok slug) (r : Registry) (emit : Bool) :
    compileSpec root settings r emit path = (do
      let reply ← ask (.read path)
      let made ← ofOutcome (workOf r emit slug (specName root path) (planOf (specName root path) reply))
      made.2.script s slug
      return made.1) := by
  simp only [compileSpec, s.specs_eq, s.tests_eq, s.plans_eq, hslug, ofFit_ok, attempt_readPlan,
    bind_assoc, done_bind]
  refine congrArg (_ >>= ·) (funext fun reply => ?_)
  cases planOf (specName root path) reply with
  | ok plan => exact writeOutputs_eq s r emit _ plan
  | error f =>
    cases f with
    | problem p => cases emit <;> rfl
    | _ => rfl

/-- What parsing alone does for a spec. -/
def parseWorkOf (slug name : String) : Outcome Plan → Outcome (Parsed × Work)
  | .ok plan => do
    let text ← Value.orFault (Plan.write plan.stored)
    let report := FileReport.blank name
    return (⟨{ report with parsed := plan.scenarios.length, output := some (Part.plan.file slug) },
      some plan⟩, .write [(.plan, text)] [])
  | .error (.problem p) => .ok (⟨{ FileReport.blank name with errors := [p] }, none⟩, .rest)
  | .error f => .error f

theorem parseSpec_eq (hslug : specSlug s.specs path = .ok slug) :
    parseSpec root s.specs settings path = (do
      let reply ← ask (.read path)
      let made ← ofOutcome (parseWorkOf slug (specName root path) (planOf (specName root path) reply))
      made.2.script s slug
      return made.1) := by
  simp only [parseSpec, s.plans_eq, hslug, ofFit_ok, attempt_readPlan, bind_assoc, done_bind]
  refine congrArg (_ >>= ·) (funext fun reply => ?_)
  cases planOf (specName root path) reply with
  | ok plan =>
    simp only [parseWorkOf, ofFit, ofOutcome_bind, bind_assoc, Path.name_child]
    rfl
  | error f => cases f <;> rfl

/-- The specs of a project are compiled in turn or side by side. -/
def several (together : Bool) (each : Path → Script (FileReport String Nat)) (paths : List Path) :
    Script (List (FileReport String Nat)) :=
  if together && paths.length > 1 then sideBySide each paths else inTurn each paths

variable {together : Bool} {report : Report String Nat}

/-- Specs are found and compiled, and then what is left of others is pruned. -/
theorem compileAll_eq (hworkers : severalWorkers settings = .ok together) (r : Registry)
    (emit : Bool) : compileAll root settings r emit = (do
      let paths ← specFiles s.specs
      let specs ← ofFit (claimants s.specs paths)
      let compiled ← several together (compileSpec root settings r emit)
        ((owners [] specs).map (·.path))
      let files := compiled ++ specs.filterMap (collision? root (owners [] specs))
      if emit then
        let pruned ← pruneTests s.tests (files.filterMap (·.output))
        prunePlans s.plans ((owners [] specs).map fun c => Part.plan.file c.slug)
        return { files, pruned }
      else return { files }) := by
  simp only [compileAll, s.specs_eq, s.tests_eq, s.plans_eq, hworkers, ofFit_ok, done_bind]
  refine congrArg (_ >>= ·) (funext fun paths => congrArg (_ >>= ·) (funext fun specs => ?_))
  unfold several
  cases together && decide (((owners [] specs).map (·.path)).length > 1) <;> rfl

/-- The end of compiling all specs: what is pruned, and the report. -/
def Finishes (s : Places root settings) (emit : Bool) (specs : List Claimant)
    (files : List (FileReport String Nat)) (w : World) (report : Report String Nat) (w' : World) : Prop :=
  if emit then ∃ pruned w₁, (pruneTests s.tests (files.filterMap (·.output))).Does w pruned w₁ ∧
    (prunePlans s.plans ((owners [] specs).map fun c => Part.plan.file c.slug)).Does w₁ () w' ∧
      report = { files, pruned }
  else report = { files } ∧ w = w'

theorem does_compileAll (hworkers : severalWorkers settings = .ok together) :
    (compileAll root settings r emit).Does w report w' ↔
      ∃ paths w₁ specs compiled w₂, (specFiles s.specs).Does w paths w₁ ∧
        claimants s.specs paths = .ok specs ∧
        (several together (compileSpec root settings r emit) ((owners [] specs).map (·.path))).Does
          w₁ compiled w₂ ∧
        Finishes s emit specs (compiled ++ specs.filterMap (collision? root (owners [] specs)))
          w₂ report w' := by
  rw [compileAll_eq s hworkers]
  simp only [does_bind, does_ofFit]
  constructor
  · rintro ⟨paths, w₁, hpaths, specs, w₁, ⟨hspecs, rfl⟩, compiled, w₂, hcompiled, h⟩
    refine ⟨paths, w₁, specs, compiled, w₂, hpaths, hspecs, hcompiled, ?_⟩
    cases emit with
    | false =>
      obtain ⟨rfl, rfl⟩ := does_pure.1 h
      exact ⟨rfl, rfl⟩
    | true =>
      obtain ⟨pruned, w₃, hpruned, h⟩ := does_bind.1 h
      obtain ⟨w₄, hplans, h⟩ := does_seq.1 h
      obtain ⟨rfl, rfl⟩ := does_pure.1 h
      exact ⟨pruned, w₃, hpruned, hplans, rfl⟩
  · rintro ⟨paths, w₁, specs, compiled, w₂, hpaths, hspecs, hcompiled, h⟩
    refine ⟨paths, w₁, hpaths, specs, w₁, ⟨hspecs, rfl⟩, compiled, w₂, hcompiled, ?_⟩
    cases emit with
    | false => exact does_pure.2 ⟨h.1.symm, h.2⟩
    | true =>
      obtain ⟨pruned, w₃, hpruned, hplans, rfl⟩ := h
      exact does_bind.2 ⟨pruned, w₃, hpruned, does_seq.2 ⟨w', hplans, does_pure.2 ⟨rfl, rfl⟩⟩⟩

theorem Finishes.files {specs : List Claimant} {files : List (FileReport String Nat)}
    (h : Finishes s emit specs files w report w') : report.files = files ∧ report.errors = [] := by
  cases emit with
  | false =>
    obtain ⟨rfl, -⟩ := h
    exact ⟨rfl, rfl⟩
  | true =>
    obtain ⟨pruned, w₁, -, -, rfl⟩ := h
    exact ⟨rfl, rfl⟩

/-- The registry in a file, from what reading the file gives. -/
def registryOf (path : Path) : Except FileError ByteArray → Outcome Registry
  | .ok bytes => Registry.ofBytes bytes path.text
  | .error (.os e) => .error (.problem (.registry ⟨path.text, none, .unreadable e.message⟩))
  | .error e => .error (.ofFile e)

theorem readRegistry_eq (path : Path) :
    readRegistry path = ask (.read path) >>= fun reply => ofOutcome (registryOf path reply) := by
  refine congrArg (_ >>= ·) (funext fun reply => ?_)
  rcases reply with (_ | _) | _ <;> rfl

theorem does_readRegistry :
    (readRegistry path).Does w r w' ↔ registryOf path (replyOf w path) = .ok r ∧ w = w' := by
  rw [readRegistry_eq, does_bind]
  constructor
  · rintro ⟨reply, w₁, hread, h⟩
    cases (perform_read w path).symm.trans (does_ask.1 hread)
    exact does_ofOutcome.1 h
  · rintro ⟨h, rfl⟩
    exact ⟨_, w, does_ask.2 (perform_read w path), does_ofOutcome.2 ⟨h, rfl⟩⟩

/-- Compiling a project starts with its registry. -/
theorem compile_eq (emit : Bool) : compile root settings emit = (do
    let reply ← ask (.read s.registry)
    match registryOf s.registry reply with
    | .ok r => compileAll root settings r emit
    | .error (.problem p) => return { errors := [p] }
    | .error f => stop f) := by
  simp only [compile, s.registry_eq, ofFit_ok, done_bind, readRegistry_eq]
  rw [attempt_ask_bind, bind_assoc]
  rfl

theorem run_compile (hr : registryOf s.registry (replyOf w s.registry) = .ok r) (emit : Bool) :
    (compile root settings emit).run w = (compileAll root settings r emit).run w := by
  rw [compile_eq s, run_bind_of_does (does_ask.2 (perform_read w s.registry)), hr]

end Scripts

end Acceptance.Project

import Acceptance.Project.Run
import Acceptance.Proofs.RegistryFaults
/-!
Manifests as they are found in files, and how results are traced by them. A file is passed over if the
system does not read it or it holds no data; otherwise it is taken up, unless it is no text, goes
beyond its format, or its data is no mapping or has no proper key. Tracing a result by data that has
the shape of a manifest fails only for a line number that is too long to be read.
-/
namespace Acceptance

variable {p : Path} {f : Fault} {e : Value × Value} {reply : Path → Except FileError ByteArray}
  {ps : List Path}

/-! Data of manifests. -/

namespace Value

variable {v w : Value} {key : String} {Q : Misfit → Prop}

/-- What a mapping has under a key. Other data has nothing there. -/
def at? (v : Value) (key : String) : Option Value := v.entries?.bind (lookup? key)

/-- Is there a number under the key? -/
def hasNumber (v : Value) (key : String) : Bool := ((v.at? key).bind numeric?).isSome

/-- Does the data tell of a step: its lines, its kind and its statement? -/
def isStepData (v : Value) : Bool :=
  v.hasNumber "first_line" && v.hasNumber "last_line" && (v.at? "kind").isSome &&
    (v.at? "statement").isSome

/-- Does the data tell of a test? It need not say anything, nor need it have steps. -/
def isTestData : Value → Bool
  | .null => true
  | v => v.entries?.isSome && ((v.at? "steps").getD (.list [])).items?.any (·.all isStepData)

/-- Does the data tell of the tests of a module? -/
def isManifest (v : Value) : Bool :=
  v.entries?.isSome && ((v.at? "tests").getD (.map [])).entries?.any (·.all (·.2.isTestData))

theorem memberD_of_isSome (h : v.entries?.isSome = true) (key : String) (d : Value) :
    v.memberD key d = .ok ((v.at? key).getD d) := by
  obtain ⟨es, hes⟩ := Option.isSome_iff_exists.1 h
  rw [memberD, member?, at?, hes]
  rfl

theorem item_of_at? (h : v.at? key = some w) : v.item key = .ok w := by
  obtain ⟨es, hes, hw⟩ := Option.bind_eq_some_iff.1 h
  simp only [item, hes, hw]

theorem elements_of_items? {vs : List Value} (h : v.items? = some vs) : v.elements = .ok vs := by
  unfold items? at h
  split at h
  · next heq =>
    cases h
    rw [elements, heq]
  · cases h

theorem failsFor_item (h : (v.at? key).isSome = true) : FailsFor Q (v.item key) := by
  obtain ⟨w, hw⟩ := Option.isSome_iff_exists.1 h
  rw [item_of_at? hw]
  exact .ok w

theorem failsFor_compareInt (h : (numeric? v).isSome = true) (n : Int) :
    FailsFor Q (v.compareInt n) := by
  cases v with
  | int m => exact .ok _
  | boolean b => exact .ok _
  | float x => exact .ok _
  | _ => cases h

theorem isSome_of_hasNumber (h : v.hasNumber key = true) : (v.at? key).isSome = true := by
  obtain ⟨n, hn⟩ := Option.isSome_iff_exists.1 h
  obtain ⟨w, hw, -⟩ := Option.bind_eq_some_iff.1 hn
  exact Option.isSome_of_mem hw

theorem numeric?_of_item (h : v.hasNumber key = true) (hw : v.item key = .ok w) :
    (numeric? w).isSome = true := by
  obtain ⟨n, hn⟩ := Option.isSome_iff_exists.1 h
  obtain ⟨w', hw', hn⟩ := Option.bind_eq_some_iff.1 hn
  cases (item_of_at? hw').symm.trans hw
  exact Option.isSome_of_mem hn

end Value

/-! Results that are traced by a manifest. -/

section Tracing

open Value

variable {Q : Misfit → Prop} {step entry : Value} {r : TestResult String}

theorem failsFor_spanHolds (h : step.isStepData = true) (line : Nat) :
    FailsFor Q (spanHolds step line) := by
  simp only [isStepData, Bool.and_eq_true] at h
  obtain ⟨⟨⟨hfirst, hlast⟩, -⟩, -⟩ := h
  refine .bind (failsFor_item (isSome_of_hasNumber hfirst)) fun first hitem => ?_
  refine .bind (failsFor_compareInt (numeric?_of_item hfirst hitem) line) fun order _ => ?_
  split
  · refine .bind (failsFor_item (isSome_of_hasNumber hlast)) fun last hitem => ?_
    exact .bind (failsFor_compareInt (numeric?_of_item hlast hitem) line) fun _ _ => .ok _
  · exact .ok _

theorem failsFor_statementOf (h : step.isStepData = true) : FailsFor Q (statementOf step) := by
  simp only [isStepData, Bool.and_eq_true] at h
  exact .bind (failsFor_item h.1.2) fun _ _ => .bind (failsFor_item h.2) fun _ _ => .ok _

theorem failsFor_quotesStep (h : step.isStepData = true) (message : String) :
    FailsFor Q (quotesStep message step) := .bind (failsFor_statementOf h) fun _ _ => .ok _

theorem failsFor_firstStatement? {test : Value → Except Misfit Bool} {steps : List Value}
    (htest : ∀ step ∈ steps, FailsFor Q (test step))
    (hsteps : ∀ step ∈ steps, step.isStepData = true) : FailsFor Q (firstStatement? test steps) := by
  induction steps with
  | nil => exact .ok none
  | cons step steps ih =>
    rw [List.forall_mem_cons] at htest hsteps
    refine .bind htest.1 fun b _ => ?_
    cases b with
    | true => exact .bind (failsFor_statementOf hsteps.1) fun _ _ => .ok _
    | false => exact ih htest.2 hsteps.2

/-- The message of a result counts lines with a number that is too long to be read. -/
def LongLine (r : TestResult String) (m : Misfit) : Prop :=
  ∃ digits ∈ numbersAfter (r.file ++ ":").toList r.message.toList,
    Numeral.maxDigits < digits.length ∧ m = .integerTooLong digits.length

theorem failsFor_failingStatement (hes : entry.entries?.isSome = true)
    (hsteps : ((entry.at? "steps").getD (.list [])).items?.any (·.all isStepData) = true) :
    FailsFor (LongLine r) (failingStatement r entry) := by
  obtain ⟨steps, hitems, hall⟩ := (Option.any_eq_true _ _).1 hsteps
  have hdata := List.all_eq_true.1 hall
  have helements := elements_of_items? hitems
  have hquoted : FailsFor (LongLine r) (firstStatement? (quotesStep r.message) steps) :=
    failsFor_firstStatement? (fun step hstep => failsFor_quotesStep (hdata step hstep) _) hdata
  have hspan (line : Nat) : FailsFor (LongLine r) (firstStatement? (spanHolds · line) steps) :=
    failsFor_firstStatement? (fun step hstep => failsFor_spanHolds (hdata step hstep) line) hdata
  unfold failingStatement
  rw [memberD_of_isSome hes]
  refine .bind (.ok _) fun found hfound => ?_
  cases hfound
  simp only [helements, ok_bind, pure_bind]
  split
  · exact .bind hquoted fun _ _ => .ok _
  · next digits hlast =>
    refine .bind ?_ fun line _ => .bind (hspan line) fun byLine _ => ?_
    · unfold lineNumber
      split
      · next hlong => exact .error ⟨digits, List.mem_of_getLast? hlast, hlong, rfl⟩
      · exact .ok _
    · cases byLine with
      | some statement => exact .ok statement
      | none => exact .bind hquoted fun _ _ => .ok _

/-- Tracing a result fails for a number that is too long, or else the data found for its module is no
manifest. -/
theorem failsFor_attach (manifests : Manifests) (r : TestResult String) :
    FailsFor (fun m => LongLine r m ∨ ∃ v, lookup? r.file manifests = some v ∧ v.isManifest = false)
      (r.attach manifests) := by
  unfold TestResult.attach
  split
  · exact .ok r
  · exact .ok r
  · next v hnull hv =>
    by_cases hshape : v.isManifest = true
    · simp only [isManifest, Bool.and_eq_true] at hshape
      obtain ⟨hes, htests⟩ := hshape
      obtain ⟨ts, hts, hall⟩ := (Option.any_eq_true _ _).1 htests
      have hmember : ((v.at? "tests").getD (.map [])).member? r.name = .ok (lookup? r.name ts) := by
        rw [member?, hts]
      simp only [memberD_of_isSome hes, ok_bind, hmember]
      split
      · exact .ok _
      · exact .ok _
      · next entry hother hentry =>
        have hdata := List.all_eq_true.1 hall _ (mem_of_lookup? hentry)
        simp only [isTestData, Bool.and_eq_true] at hdata
        simp only [memberD_of_isSome hdata.1, ok_bind]
        split
        · refine .bind (fun m hm => ?_) fun statement _ => .ok _
          exact .inl (failsFor_failingStatement hdata.1 hdata.2 m hm)
        · exact .ok _
    · exact fun m _ => .inr ⟨v, hv, by simpa using hshape⟩

end Tracing

namespace Project

open Script

/-! Manifests of a directory. -/

/-- The data in a file, from what reading the file gives. -/
def dataIn (reply : Except FileError ByteArray) : Outcome Value :=
  textIn reply >>= fun text => (Json.read text).mapError .ofJson

/-- The manifest in a file and its key. There is none where the file is passed over. -/
def manifestIn (p : Path) (reply : Except FileError ByteArray) : Outcome (Option (Value × Value)) :=
  match dataIn reply with
  | .ok v => (Value.orFault (manifestKey p v)).map fun key => some (key, v)
  | .error (.os _) => .ok none
  | .error (.json _) => .ok none
  | .error f => .error f

def takeUp (found : Manifests) : Option (Value × Value) → Manifests
  | some (key, v) => Value.put key v found
  | none => found

/-- Why a file cannot be passed over, nor its manifest be taken up. -/
inductive Obstructs (reply : Except FileError ByteArray) : Fault → Prop
  | path {flaw : PathFlaw} (h : reply = .error (.path flaw)) : Obstructs reply (.path flaw)
  | encoding {bytes : ByteArray} {e : Text.Utf8Error} (hreply : reply = .ok bytes)
      (h : Text.decode bytes = .error e) : Obstructs reply (.undecodable e)
  | format {text : String} {m : Misfit} (htext : textIn reply = .ok text)
      (h : Json.read text = .error (.misfit m)) : Obstructs reply (.misfit m)
  | data {v : Value} (hdata : dataIn reply = .ok v) (h : v.entries? = none) :
      Obstructs reply (.misfit .noMember)
  | key {v : Value} (hdata : dataIn reply = .ok v)
      (h : (∃ vs, v.at? "module" = some (.list vs)) ∨ ∃ es, v.at? "module" = some (.map es)) :
      Obstructs reply (.misfit .wrongKind)

theorem manifestKey_eq_error {v : Value} {m : Misfit} : manifestKey p v = .error m ↔
    (v.entries? = none ∧ m = .noMember) ∨ m = .wrongKind ∧
      ((∃ vs, v.at? "module" = some (.list vs)) ∨ ∃ es, v.at? "module" = some (.map es)) := by
  unfold manifestKey
  cases hes : v.entries? with
  | none =>
    have hnone : v.at? "module" = none := by rw [Value.at?, hes, Option.bind_none]
    have hmember (d : Value) : v.memberD "module" d = .error .noMember := by
      rw [Value.memberD, Value.member?, hes]
      rfl
    simp only [hmember, error_bind, hnone]
    simp [eq_comm]
  | some es =>
    simp only [Value.memberD_of_isSome (Option.isSome_of_mem hes), ok_bind, reduceCtorEq, false_and,
      false_or]
    cases v.at? "module" with
    | none => simp [pure, Except.pure]
    | some key => cases key <;> simp [pure, Except.pure, eq_comm]

theorem textIn_of_decode {bytes : ByteArray} {e : Text.Utf8Error} (h : Text.decode bytes = .error e) :
    textIn (.ok bytes) = .error (.undecodable e) := by
  change textOf bytes = _
  rw [textOf, h]
  rfl

theorem obstructs_of_dataIn {reply : Except FileError ByteArray} (h : dataIn reply = .error f) :
    (∃ e, f = .os e) ∨ (∃ e, f = .json e) ∨ Obstructs reply f := by
  rcases bind_eq_error.1 h with htext | ⟨text, htext, hjson⟩
  · rcases reply with (e | flaw) | bytes
    · cases htext
      exact .inl ⟨e, rfl⟩
    · cases htext
      exact .inr (.inr (.path rfl))
    · cases hdecode : Text.decode bytes with
      | error e =>
        cases (textIn_of_decode hdecode).symm.trans htext
        exact .inr (.inr (.encoding rfl hdecode))
      | ok text =>
        change textOf bytes = _ at htext
        rw [textOf, hdecode] at htext
        cases htext
  · cases hread : Json.read text with
    | ok v =>
      rw [hread] at hjson
      cases hjson
    | error e =>
      rw [hread] at hjson
      cases hjson
      cases e with
      | flaw e => exact .inr (.inl ⟨e, rfl⟩)
      | misfit m => exact .inr (.inr (.format htext hread))

/-- A file gets in the way of the others just for one of these reasons. -/
theorem manifestIn_eq_error {reply : Except FileError ByteArray} :
    manifestIn p reply = .error f ↔ Obstructs reply f := by
  have hkey {v : Value} {m : Misfit} (hdata : dataIn reply = .ok v) (hm : manifestKey p v = .error m) :
      manifestIn p reply = .error (.misfit m) := by
    simp only [manifestIn, hdata, hm]
    rfl
  constructor
  · intro h
    unfold manifestIn at h
    split at h
    · next v hdata =>
      cases hm : manifestKey p v with
      | ok key =>
        rw [hm] at h
        cases h
      | error m =>
        rw [hm] at h
        cases h
        rcases manifestKey_eq_error.1 hm with ⟨hes, rfl⟩ | ⟨rfl, hmodule⟩
        · exact .data hdata hes
        · exact .key hdata hmodule
    · cases h
    · cases h
    · next f' hos hjson hdata =>
      cases h
      rcases obstructs_of_dataIn hdata with ⟨e, rfl⟩ | ⟨e, rfl⟩ | hobstructs
      · exact absurd rfl (hos e)
      · exact absurd rfl (hjson e)
      · exact hobstructs
  · intro h
    cases h with
    | path h =>
      subst h
      rfl
    | encoding hreply h =>
      subst hreply
      rw [manifestIn, dataIn, textIn_of_decode h]
      rfl
    | format htext h =>
      rw [manifestIn, dataIn, htext, ok_bind, h]
      rfl
    | data hdata h => exact hkey hdata (manifestKey_eq_error.2 (.inl ⟨h, rfl⟩))
    | key hdata h => exact hkey hdata (manifestKey_eq_error.2 (.inr ⟨rfl, h⟩))

theorem addManifest_eq (found : Manifests) (p : Path) : addManifest found p =
    ask (.read p) >>= fun reply => ofOutcome ((manifestIn p reply).map (takeUp found)) := by
  rw [addManifest, readJson_eq, attempt_ask_bind, bind_assoc]
  refine congrArg (_ >>= ·) (funext fun reply => ?_)
  rw [done_bind, manifestIn, dataIn]
  cases textIn reply >>= fun text => (Json.read text).mapError Fault.ofJson with
  | ok v => cases h : manifestKey p v <;> simp only [h] <;> rfl
  | error f => cases f <;> rfl

/-- The manifests of some files, each under its key. -/
def manifestsIn (reply : Path → Except FileError ByteArray) (ps : List Path) : Outcome Manifests :=
  (ps.mapM fun p => manifestIn p (reply p)).map (·.foldl takeUp [])

theorem run_addManifests (w : World) (ps : List Path) (found : Manifests) :
    (ps.foldlM addManifest found).run w =
      ((ps.mapM fun p => manifestIn p (replyOf w p)).map (·.foldl takeUp found), w) := by
  induction ps generalizing found with
  | nil => rfl
  | cons p ps ih =>
    rw [List.foldlM_cons, List.mapM_cons, addManifest_eq, bind_assoc,
      run_bind_of_does (does_ask.2 (perform_read w p))]
    cases manifestIn p (replyOf w p) with
    | error f => rfl
    | ok m =>
      change (ps.foldlM addManifest (takeUp found m)).run w = _
      rw [ih]
      cases ps.mapM fun p => manifestIn p (replyOf w p) <;> rfl

theorem mem_put {key v : Value} {es : Manifests} (h : e ∈ Value.put key v es) :
    e.2 = v ∨ e ∈ es := by
  induction es with
  | nil => exact .inl (congrArg Prod.snd (List.mem_singleton.1 h))
  | cons first es ih =>
    unfold Value.put at h
    split at h
    · rcases List.mem_cons.1 h with rfl | h
      · exact .inl rfl
      · exact .inr (List.mem_cons_of_mem _ h)
    · rcases List.mem_cons.1 h with rfl | h
      · exact .inr List.mem_cons_self
      · exact (ih h).imp_right (List.mem_cons_of_mem _)

variable {taken : List (Option (Value × Value))} {ms : Manifests}

theorem mem_foldl_takeUp {found : Manifests} (h : e ∈ taken.foldl takeUp found) :
    e ∈ found ∨ ∃ key, some (key, e.2) ∈ taken := by
  induction taken generalizing found with
  | nil => exact .inl h
  | cons m taken ih =>
    rcases ih h with h | ⟨key, h⟩
    · cases m with
      | none => exact .inl h
      | some m =>
        rcases mem_put h with heq | h
        · exact .inr ⟨m.1, by rw [heq]; exact List.mem_cons_self⟩
        · exact .inl h
    · exact .inr ⟨key, List.mem_cons_of_mem _ h⟩

theorem dataIn_of_manifestIn {reply : Except FileError ByteArray} {key v : Value}
    (h : manifestIn p reply = .ok (some (key, v))) : dataIn reply = .ok v := by
  unfold manifestIn at h
  split at h
  · next v' hdata =>
    cases hkey : manifestKey p v' with
    | ok key' =>
      rw [hkey] at h
      cases h
      exact hdata
    | error m =>
      rw [hkey] at h
      cases h
  all_goals cases h

/-- Every manifest is the data of a file. -/
theorem dataIn_of_mem_manifestsIn (h : manifestsIn reply ps = .ok ms) (he : e ∈ ms) :
    ∃ p ∈ ps, dataIn (reply p) = .ok e.2 := by
  unfold manifestsIn at h
  cases htaken : ps.mapM fun p => manifestIn p (reply p) with
  | error f =>
    rw [htaken] at h
    cases h
  | ok taken =>
    rw [htaken] at h
    cases h
    obtain ⟨key, hmem⟩ := (mem_foldl_takeUp he).resolve_left List.not_mem_nil
    obtain ⟨p, hp, hm⟩ := exists_of_mem_forall₂ (mapM_eq_ok.1 htaken) _ hmem
    exact ⟨p, hp, dataIn_of_manifestIn hm⟩

/-- Files that are passed over might as well not be there. -/
theorem foldl_takeUp_readable (h : ps.mapM (fun p => manifestIn p (reply p)) = .ok taken) :
    ∃ kept, (ps.filter fun p => (dataIn (reply p)).isOk).mapM (fun p => manifestIn p (reply p)) =
      .ok kept ∧ ∀ found, kept.foldl takeUp found = taken.foldl takeUp found := by
  induction ps generalizing taken with
  | nil => exact ⟨taken, h, fun _ => rfl⟩
  | cons p ps ih =>
    obtain ⟨m, rest, hm, hrest, rfl⟩ := mapM_cons_eq_ok.1 h
    obtain ⟨kept, hkept, hfold⟩ := ih hrest
    cases hdata : dataIn (reply p) with
    | ok v =>
      rw [List.filter_cons_of_pos (by rw [hdata]; rfl)]
      exact ⟨m :: kept, mapM_cons_eq_ok.2 ⟨m, kept, hm, hkept, rfl⟩, fun found => hfold _⟩
    | error f =>
      rw [List.filter_cons_of_neg (by simp [hdata, Except.isOk, Except.toBool])]
      -- What is passed over leaves what was found before as it is.
      have hnone : m = none := by
        rw [manifestIn, hdata] at hm
        cases f <;> cases hm <;> rfl
      exact ⟨kept, hkept, fun found => by rw [hfold, hnone]; rfl⟩

theorem manifestsIn_readable (h : manifestsIn reply ps = .ok ms) :
    manifestsIn reply (ps.filter fun p => (dataIn (reply p)).isOk) = .ok ms := by
  unfold manifestsIn at h
  cases htaken : ps.mapM fun p => manifestIn p (reply p) with
  | error f =>
    rw [htaken] at h
    cases h
  | ok taken =>
    rw [htaken] at h
    cases h
    obtain ⟨kept, hkept, hfold⟩ := foldl_takeUp_readable htaken
    rw [manifestsIn, hkept]
    exact congrArg Except.ok (hfold [])

/-- Manifests are taken up unless one of the files gets in the way. -/
theorem obstructs_of_manifestsIn (h : manifestsIn reply ps = .error f) :
    ∃ p ∈ ps, Obstructs (reply p) f := by
  obtain ⟨p, hp, hf⟩ := exists_error_of_mapM (map_eq_error.1 h)
  exact ⟨p, hp, manifestIn_eq_error.1 hf⟩

theorem manifestsIn_of_obstructs (hp : p ∈ ps) (h : Obstructs (reply p) f) :
    ∃ f', manifestsIn reply ps = .error f' := by
  have hfile : manifestIn p (reply p) = .error f := manifestIn_eq_error.2 h
  obtain ⟨f', hf'⟩ := (mapM_eq_error (f := fun p => manifestIn p (reply p))).2 ⟨p, hp, f, hfile⟩
  exact ⟨f', map_eq_error.2 hf'⟩

end Project
end Acceptance

import Acceptance.Proofs.Rebuild
/-!
How the reading of a registry fails. Whatever data a registry is read from, what is wrong with it is
told as a flaw of the registry, with two exceptions: a key of a template or of its holes that is no
text cannot be listed, and a number that is too long cannot be shown. A file may also be no text, or
its data may be beyond what its format can tell. Where the flaw is told, compiling a project reports
it and leaves everything as it was.
-/
namespace Acceptance

namespace Value

/-! Parts of data that can be shown. -/

theorem isShowable_map {es : List (Value × Value)} : (Value.map es).isShowable = true ↔
    ∀ e ∈ es, e.1.isShowable = true ∧ e.2.isShowable = true := by
  rw [isShowable]
  induction es with
  | nil => simp [entriesAreShowable]
  | cons e es ih =>
    rw [entriesAreShowable, Bool.and_eq_true, Bool.and_eq_true, ih, List.forall_mem_cons]

mutual

variable {label : Nat} {whole : Value}

theorem isShowable_close (hwhole : whole.isShowable = true) (v : Value) (h : v.isShowable = true) :
    (close label whole v).isShowable = true := by
  cases v with
  | loop l isMap =>
    rw [close]
    split
    · exact hwhole
    · rfl
  | knot l v => exact isShowable_close hwhole v h
  | list vs => exact areShowable_closeAll hwhole vs h
  | tuple vs => exact areShowable_closeAll hwhole vs h
  | set vs => exact areShowable_closeAll hwhole vs h
  | map es => exact entriesAreShowable_closeEntries hwhole es h
  | _ => exact h

theorem areShowable_closeAll (hwhole : whole.isShowable = true) (vs : List Value)
    (h : areShowable vs = true) : areShowable (closeAll label whole vs) = true := by
  cases vs with
  | nil => rfl
  | cons v vs =>
    rw [areShowable, Bool.and_eq_true] at h
    rw [closeAll, areShowable, isShowable_close hwhole v h.1, areShowable_closeAll hwhole vs h.2]
    rfl

theorem entriesAreShowable_closeEntries (hwhole : whole.isShowable = true)
    (es : List (Value × Value)) (h : entriesAreShowable es = true) :
    entriesAreShowable (closeEntries label whole es) = true := by
  cases es with
  | nil => rfl
  | cons e es =>
    obtain ⟨k, v⟩ := e
    rw [entriesAreShowable, Bool.and_eq_true, Bool.and_eq_true] at h
    rw [closeEntries, entriesAreShowable, h.1.1, isShowable_close hwhole v h.1.2,
      entriesAreShowable_closeEntries hwhole es h.2]
    rfl

end

theorem isShowable_untied {v : Value} (h : v.isShowable = true) : v.untied.isShowable = true := by
  cases v with
  | knot label v => exact isShowable_close h v h
  | _ => exact h

theorem isShowable_of_entries? {v : Value} {es : List (Value × Value)} (hes : v.entries? = some es)
    (h : v.isShowable = true) : ∀ e ∈ es, e.1.isShowable = true ∧ e.2.isShowable = true := by
  have huntied := isShowable_untied h
  rw [entries?] at hes
  split at hes
  · next heq =>
    rw [heq] at huntied
    exact Option.some.inj hes ▸ isShowable_map.1 huntied
  · cases hes

theorem isShowable_of_items? {v : Value} {vs : List Value} (hvs : v.items? = some vs)
    (h : v.isShowable = true) : ∀ item ∈ vs, item.isShowable = true := by
  have huntied := isShowable_untied h
  rw [items?] at hvs
  split at hvs
  · next heq =>
    rw [heq] at huntied
    exact Option.some.inj hvs ▸ Json.isShowable_list.1 huntied
  · cases hvs

theorem mem_of_lookup? {key : String} {es : List (Value × Value)} {v : Value}
    (h : lookup? key es = some v) : (.text key, v) ∈ es := by
  induction es using lookup?.induct key with
  | case1 => cases h
  | case2 v' rest =>
    rw [lookup?_cons_self] at h
    cases h
    exact List.mem_cons_self
  | case3 k v' rest hne ih =>
    rw [lookup?_cons_of_ne hne] at h
    exact List.mem_cons_of_mem _ (ih h)
  | case4 e rest hother ih =>
    rw [lookup?.eq_3 _ _ _ hother] at h
    exact List.mem_cons_of_mem _ (ih h)

/-- Can the value be listed among texts? -/
def isText : Value → Bool
  | .text _ => true
  | .torn _ => true
  | _ => false

/-- Are the keys of the mapping texts? -/
def isTextKeyed (v : Value) : Bool := (v.entries?.getD []).all fun e => e.1.isText

end Value

namespace Registry

/-- A refusal that tells a flaw, or that a reason explains: a number that is too long to be shown, or
a key that cannot be listed. -/
inductive Refusal.Due (long odd : Prop) : Refusal → Prop
  | flaw (f : RegistryFlaw) : Due long odd (.flaw f)
  | number (h : long) : Due long odd (.misfit .numberTooLongToShow)
  | key (h : odd) : Due long odd (.misfit .wrongKind)

section Parts

open Refusal

variable {α : Type} {long odd : Prop} {v : Value} {es : Entries}

theorem failsFor_orRefuse (r : Except RegistryFlaw α) : FailsFor (Due long odd) (orRefuse r) := by
  cases r with
  | ok a => exact .ok a
  | error flaw => exact .error (.flaw flaw)

theorem failsFor_refuse (h : ¬v.isShowable → long) (flaw : RegistryFlaw) :
    FailsFor (Due long odd) (refuse v flaw : Except Refusal α) := by
  rw [refuse]
  split
  · exact .error (.flaw flaw)
  · next hlong => exact .error (.number (h hlong))

theorem failsFor_shown (h : ¬v.isShowable → long) : FailsFor (Due long odd) (shown v) := by
  rw [shown]
  split
  · exact .ok _
  · next hlong => exact .error (.number (h hlong))

theorem failsFor_dottedName (h : ¬v.isShowable → long) (key : String) :
    FailsFor (Due long odd) (dottedName key v) := by
  rw [dottedName]
  split
  · split
    · exact .ok _
    · exact failsFor_refuse h _
  · exact failsFor_refuse h _

theorem failsFor_dottedName? {key : String} (h : ¬(member es key).isShowable → long) :
    FailsFor (Due long odd) (dottedName? key es) := by
  rw [dottedName?]
  split
  · exact (failsFor_dottedName h key).map
  · exact .ok none

theorem failsFor_otherKeys (h : (∃ e ∈ es, ¬e.1.isText) → odd) (known : List String) :
    FailsFor (Due long odd) (otherKeys known es) := by
  -- Known keys are texts, so a key that is none is always among those to be listed.
  refine .bind (.mapM fun e he => ?_) fun names _ => .ok _
  have hmem := (List.mem_filter.1 he).1
  obtain ⟨k, v⟩ := e
  cases k with
  | text s => exact .ok _
  | torn ps => exact .ok _
  | _ => exact .error (.key (h ⟨_, hmem, Bool.false_ne_true⟩))

theorem failsFor_kindOf (h : ¬v.isShowable → long) : FailsFor (Due long odd) (kindOf v) := by
  refine .bind (failsFor_shown h) fun name _ => ?_
  split
  · exact .ok _
  · exact .error (.flaw _)

theorem failsFor_patternOf (h : ¬v.isShowable → long) : FailsFor (Due long odd) (patternOf v) := by
  refine .bind (failsFor_shown h) fun told _ => ?_
  dsimp only
  split
  · exact .error (.flaw _)
  · exact .ok _

theorem failsFor_holeTypeOf (h : ∀ e ∈ es, ¬e.2.isShowable → long) (name : String) :
    FailsFor (Due long odd) (holeTypeOf es name) := by
  refine .bind (failsFor_shown fun hlong => ?_) fun type _ => ?_
  · cases htype : Value.lookup? name es with
    | none =>
      rw [htype] at hlong
      exact absurd rfl hlong
    | some v =>
      rw [htype] at hlong
      exact h _ (Value.mem_of_lookup? htype) hlong
  · split
    · exact .ok _
    · exact .error (.flaw _)

theorem failsFor_holesOf (hlong : ¬v.isShowable → long) (hodd : ¬v.isTextKeyed → odd)
    (pattern : Phrase) : FailsFor (Due long odd) (holesOf pattern v) := by
  unfold holesOf
  extract_lets names reserved rest
  have hrest {declared : Entries} (hkeys : (∃ e ∈ declared, ¬e.1.isText) → odd)
      (htypes : ∀ e ∈ declared, ¬e.2.isShowable → long) : FailsFor (Due long odd) (rest declared) := by
    refine .bind (failsFor_orRefuse _) fun _ _ => .bind (failsFor_orRefuse _) fun _ _ => ?_
    refine .bind (failsFor_otherKeys hkeys _) fun _ _ => .bind (failsFor_orRefuse _) fun _ _ => ?_
    exact .mapM fun name _ => failsFor_holeTypeOf htypes name
  split
  · next declared hes =>
    refine hrest (fun hkey => hodd ?_) fun e he hno => hlong fun hv => ?_
    · rw [Value.isTextKeyed, hes]
      simpa using hkey
    · exact hno (Value.isShowable_of_entries? hes hv e he).2
  · split
    · exact .error (.flaw _)
    · exact hrest (by simp) (by simp)

theorem failsFor_comparisonOf (h : ¬v.isShowable → long) :
    FailsFor (Due long odd) (comparisonOf v) := by
  rw [comparisonOf]
  split
  · split
    · exact .ok _
    · exact failsFor_refuse h _
  · exact .ok _

theorem failsFor_constantOf (h : ¬v.isShowable → long) : FailsFor (Due long odd) (constantOf v) := by
  unfold constantOf
  split
  all_goals first | exact .ok _ | exact failsFor_refuse h _

theorem failsFor_namedHole (h : ¬v.isShowable → long) (names : List String) :
    FailsFor (Due long odd) (namedHole names v) := by
  unfold namedHole
  split
  · exact .ok _
  · split
    · exact .ok _
    · exact .error (.flaw _)
  · exact failsFor_refuse h _

theorem failsFor_expectationOf (h : ∀ key, ¬(member es key).isShowable → long)
    (names : List String) : FailsFor (Due long odd) (expectationOf names es) := by
  unfold expectationOf
  extract_lets expected constant rest
  have hrest (chosen : Comparison × Option String) : FailsFor (Due long odd) (rest chosen) := by
    dsimp only [rest]
    split
    · exact .ok _
    · exact .bind (failsFor_constantOf (h _)).map fun literal _ => .ok _
  refine .bind (failsFor_comparisonOf (h _)) fun comparison _ => ?_
  refine .bind (failsFor_orRefuse _) fun _ _ => .bind (failsFor_namedHole (h _) _) fun hole _ => ?_
  split
  · exact .bind (failsFor_orRefuse _) fun _ _ => hrest (comparison, hole)
  · split
    · exact .bind (failsFor_orRefuse _) fun chosen _ => hrest chosen
    · exact hrest (comparison, hole)

theorem isShowable_member (hes : v.entries? = some es) (h : v.isShowable) (key : String) :
    (member es key).isShowable := by
  rw [member]
  cases hv : Value.lookup? key es with
  | none => rfl
  | some w => exact (Value.isShowable_of_entries? hes h _ (Value.mem_of_lookup? hv)).2

end Parts

/-- Are the keys of a template and of its holes texts? -/
def isTextKeyedTemplate (w : Value) : Bool :=
  w.isTextKeyed && (member (w.entries?.getD []) "params").isTextKeyed

/-- A template is refused for a flaw, unless it has a number that is too long or a key that is no
text. -/
theorem failsFor_templateOf (w : Value) :
    FailsFor (Refusal.Due (¬w.isShowable) (¬isTextKeyedTemplate w)) (templateOf w) := by
  unfold templateOf
  split
  · next es hes =>
    have hmember (key : String) : ¬(member es key).isShowable → ¬w.isShowable :=
      mt fun hw => isShowable_member hes hw key
    have hkeys : (∃ e ∈ es, ¬e.1.isText) → ¬isTextKeyedTemplate w := by
      rintro ⟨e, he, hkey⟩ hall
      rw [isTextKeyedTemplate, Value.isTextKeyed, hes, Bool.and_eq_true] at hall
      exact hkey (List.all_eq_true.1 hall.1 e he)
    have hparams : ¬(member es "params").isTextKeyed → ¬isTextKeyedTemplate w := by
      refine mt fun hall => ?_
      rw [isTextKeyedTemplate, hes, Bool.and_eq_true] at hall
      exact hall.2
    show FailsFor _ (orRefuse (requireKeys ["kind", "pattern", "operation"] es) >>= _)
    refine .bind (failsFor_orRefuse _) fun _ _ => .bind (failsFor_otherKeys hkeys _) fun _ _ => ?_
    refine .bind (failsFor_orRefuse _) fun _ _ => .bind (failsFor_kindOf (hmember _)) fun kind _ => ?_
    refine .bind (failsFor_patternOf (hmember _)) fun pattern _ => ?_
    refine .bind (failsFor_dottedName (hmember _) _) fun operation _ => ?_
    refine .bind (failsFor_holesOf (hmember _) hparams _) fun holes _ => ?_
    refine .bind (failsFor_orRefuse _) fun _ _ => ?_
    split
    · exact .bind (failsFor_expectationOf hmember _) fun expectation _ => .ok _
    · split
      · exact .error (.flaw _)
      · exact .ok _
  · exact .error (.flaw _)

/-- A flaw of the registry, in the whole of it or in one of its templates. -/
def IsFlaw (source : String) (f : Fault) : Prop :=
  ∃ index flaw, f = .problem (.registry ⟨source, index, flaw⟩)

/-- What stops the reading of data, but is not told as a flaw of the registry. -/
inductive Untold (v : Value) : Fault → Prop
  | number (h : ¬v.isShowable) : Untold v (.misfit .numberTooLongToShow)
  | key {w : Value} (hw : w ∈ templateEntries v) (h : ¬isTextKeyedTemplate w) :
    Untold v (.misfit .wrongKind)

theorem isFlaw_or_untold {v : Value} {long odd : Prop} {e : Refusal} (h : e.Due long odd)
    (hlong : long → ¬v.isShowable) (hodd : odd → ∃ w ∈ templateEntries v, ¬isTextKeyedTemplate w)
    (source : String) (index : Option Nat) :
    IsFlaw source (e.fault source index) ∨ Untold v (e.fault source index) := by
  cases h with
  | flaw f => exact .inl ⟨index, f, rfl⟩
  | number h => exact .inr (.number (hlong h))
  | key h =>
    obtain ⟨w, hw, hkey⟩ := hodd h
    exact .inr (.key hw hkey)

theorem failsFor_templatesFrom {Q : Fault → Prop} {source : String} {ws : List Value}
    (h : ∀ w ∈ ws, ∀ i e, Refusal.Due (¬w.isShowable) (¬isTextKeyedTemplate w) e →
      Q (e.fault source (some i))) (i : Nat) (seen : List Template) :
    FailsFor Q (templatesFrom source i seen ws) := by
  induction ws generalizing i seen with
  | nil => exact .ok []
  | cons w ws ih =>
    obtain ⟨hw, hws⟩ := List.forall_mem_cons.1 h
    refine .bind ((failsFor_templateOf w).mapError (hw i)) fun t _ => ?_
    split
    · exact .error (hw i _ (.flaw _))
    · exact .bind (ih hws (i + 1) (t :: seen)) fun ts _ => .ok _

/-- What is wrong with the data of a registry is told as a flaw of it, with two exceptions. -/
theorem failsFor_ofValue (v : Value) (source : String) :
    FailsFor (fun f => IsFlaw source f ∨ Untold v f) (ofValue v source) := by
  simp only [ofValue]
  split
  · next es hes =>
    have hmember (key : String) : ¬(member es key).isShowable → ¬v.isShowable :=
      mt fun hv => isShowable_member hes hv key
    -- Outside of the templates no keys are listed, so numbers are all that cannot be told.
    have hpart {e : Refusal} (h : e.Due (¬v.isShowable) False) :=
      isFlaw_or_untold h id False.elim source none
    refine .bind (.ok es) fun _ hsame => ?_
    cases hsame
    refine .bind ((failsFor_orRefuse _).mapError fun _ => hpart) fun _ _ => ?_
    refine .bind ((failsFor_dottedName (hmember _) _).mapError fun _ => hpart) fun _ _ => ?_
    refine .bind ((failsFor_dottedName? (hmember _)).mapError fun _ => hpart) fun _ _ => ?_
    refine .bind ((failsFor_dottedName? (hmember _)).mapError fun _ => hpart) fun _ _ => ?_
    split
    · next ws hws =>
      have hentries : templateEntries v = ws := by
        rw [templateEntries, hes, Option.bind_some, hws, Option.getD_some]
      refine .bind (.ok ws) fun _ hsame => ?_
      cases hsame
      refine .bind (failsFor_templatesFrom (fun w hw i e he => ?_) 0 []) fun _ _ => .ok _
      refine isFlaw_or_untold he (mt fun hv => ?_) (fun hkey => ⟨w, hentries ▸ hw, hkey⟩) source _
      exact Value.isShowable_of_items? hws (isShowable_member hes hv _) w hw
    · exact .error (.inl ⟨_, _, rfl⟩)
  · exact .error (.inl ⟨_, _, rfl⟩)

/-- The data in the text of a file. -/
def dataOf (text : String) : Except Yaml.Failure Value :=
  Yaml.read (String.ofList (Text.unifyBreaks text.toList))

/-- What stops the reading of a file, but is not told as a flaw of the registry: the file is no text,
its format cannot tell what is wrong, or its data are read and cannot be told of. -/
inductive UntoldFile (bytes : ByteArray) : Fault → Prop
  | encoding {e : Text.Utf8Error} (h : Text.decode bytes = .error e) :
    UntoldFile bytes (.undecodable e)
  | format {text : String} {m : Misfit} (htext : Text.decode bytes = .ok text)
    (h : dataOf text = .error (.misfit m)) : UntoldFile bytes (.misfit m)
  | content {text : String} {v : Value} {f : Fault} (htext : Text.decode bytes = .ok text)
    (hread : dataOf text = .ok v) (h : Untold v f) : UntoldFile bytes f

theorem UntoldFile.ne_problem {bytes : ByteArray} {f : Fault} (h : UntoldFile bytes f) (p : Problem) :
    f ≠ .problem p := by
  rintro rfl
  cases h with
  | content _ _ h => cases h

theorem failsFor_ofBytes (bytes : ByteArray) (source : String) :
    FailsFor (fun f => IsFlaw source f ∨ UntoldFile bytes f) (ofBytes bytes source) := by
  rw [ofBytes]
  cases htext : Text.decode bytes with
  | error e => exact .error (.inr (.encoding htext))
  | ok text =>
    show FailsFor _ (ofYaml (String.ofList (Text.unifyBreaks text.toList)) source)
    rw [ofYaml]
    split
    · next v hread =>
      intro f hf
      exact (failsFor_ofValue v source f hf).imp_right (.content htext hread)
    · exact .error (.inl ⟨_, _, rfl⟩)
    · next m hread => exact .error (.inr (.format htext hread))

end Registry

namespace Project

open Script Registry

variable {root : Path} {settings : Settings} (s : Places root settings) {w : World}

theorem does_compile_of_problem {p : Problem}
    (h : registryOf s.registry (replyOf w s.registry) = .error (.problem p)) (emit : Bool) :
    (compile root settings emit).Does w { errors := [p] } w :=
  (does_compile_iff s).2 (.inr ⟨p, h, rfl, rfl⟩)

theorem run_compile_of_fault {f : Fault} (hf : ∀ p, f ≠ .problem p)
    (h : registryOf s.registry (replyOf w s.registry) = .error f) (emit : Bool) :
    (compile root settings emit).run w = (.error f, w) := by
  rw [compile_eq s, run_bind_of_does (does_ask.2 (perform_read w s.registry)), h]
  cases f with
  | problem p => exact absurd rfl (hf p)
  | _ => rfl

/-- A registry file that cannot be read is a flaw of the registry too. -/
theorem failsFor_registryOf (path : Path) (reply : Except FileError ByteArray) :
    FailsFor (fun f => IsFlaw path.text f ∨ (∃ bytes, reply = .ok bytes ∧ UntoldFile bytes f) ∨
      ∃ flaw, reply = .error (.path flaw) ∧ f = .path flaw) (registryOf path reply) := by
  cases reply with
  | ok bytes =>
    intro f hf
    exact (failsFor_ofBytes bytes path.text f hf).imp_right fun h => .inl ⟨bytes, rfl, h⟩
  | error e =>
    cases e with
    | os e => exact .error (.inl ⟨_, _, rfl⟩)
    | path flaw => exact .error (.inr (.inr ⟨flaw, rfl, rfl⟩))

/-- A bad registry is told of. Data, and the bytes of a file, are read as a registry or refused for a
flaw of it, and compiling a project reports the flaw and changes nothing. Only numbers too long to be
shown, keys of templates or of their holes that are no texts, and files that are no texts or whose
format cannot tell what is wrong are not told; compiling stops for them, and changes nothing either. -/
theorem bad_registry_told (v : Value) (bytes : ByteArray) (source : String) (emit : Bool)
    (w : World) :
    ((∃ r, ofValue v source = .ok r) ∨
      ∃ f, ofValue v source = .error f ∧ (IsFlaw source f ∨ Untold v f)) ∧
    ((∃ r, ofBytes bytes source = .ok r) ∨
      ∃ f, ofBytes bytes source = .error f ∧ (IsFlaw source f ∨ UntoldFile bytes f)) ∧
    ((∃ r, registryOf s.registry (replyOf w s.registry) = .ok r) ∨
      (∃ index flaw, (compile root settings emit).Does w
        { errors := [.registry ⟨s.registry.text, index, flaw⟩] } w) ∨
      (∃ bytes f, replyOf w s.registry = .ok bytes ∧ UntoldFile bytes f ∧
        (compile root settings emit).run w = (.error f, w)) ∨
      ∃ flaw, replyOf w s.registry = .error (.path flaw)) := by
  refine ⟨?_, ?_, ?_⟩
  · cases h : ofValue v source with
    | ok r => exact .inl ⟨r, rfl⟩
    | error f => exact .inr ⟨f, rfl, failsFor_ofValue v source f h⟩
  · cases h : ofBytes bytes source with
    | ok r => exact .inl ⟨r, rfl⟩
    | error f => exact .inr ⟨f, rfl, failsFor_ofBytes bytes source f h⟩
  · cases h : registryOf s.registry (replyOf w s.registry) with
    | ok r => exact .inl ⟨r, rfl⟩
    | error f =>
      rcases failsFor_registryOf _ _ f h with ⟨index, flaw, rfl⟩ | ⟨bytes, hbytes, hf⟩ | ⟨flaw, hflaw, -⟩
      · exact .inr (.inl ⟨index, flaw, does_compile_of_problem s h emit⟩)
      · exact .inr (.inr (.inl ⟨bytes, f, hbytes, hf, run_compile_of_fault s hf.ne_problem h emit⟩))
      · exact .inr (.inr (.inr ⟨flaw, hflaw⟩))

/-- What does not fit, if that is the fault. -/
def misfit? {α : Type} : Outcome α → Option Misfit
  | .error (.misfit m) => some m
  | _ => none

theorem eq_error_of_misfit? {α : Type} {x : Outcome α} {m : Misfit} (h : misfit? x = some m) :
    x = .error (.misfit m) := by
  unfold misfit? at h
  split at h
  · cases h
    rfl
  · cases h

/-- A project with a registry and nothing else. -/
def registryOnly (bytes : ByteArray) : World where
  tree := ⟨[(["specs"], .dir), (["specs", "operations.yaml"], .file bytes)]⟩

/-- A registry with a template that has the key `on`, which is read as true. -/
def switchedText : String :=
  "module: m\ntemplates:\n- kind: WHEN\n  pattern: a\n  operation: b\n  on: x\n"

/-- Neither the unknown key of a template nor a byte that is no text is told: compiling makes no
report. -/
theorem untold_registries :
    (compile here {} true).run (registryOnly (Text.encode switchedText)) =
      (.error (.misfit .wrongKind), registryOnly (Text.encode switchedText)) ∧
    ∃ e, (compile here {} true).run (registryOnly ⟨#[0xff]⟩) =
      (.error (.undecodable e), registryOnly ⟨#[0xff]⟩) := by
  have hreply (bytes : ByteArray) :
      replyOf (registryOnly bytes) (usual here).registry = .ok bytes := rfl
  have hkey : misfit? (registryOf (usual here).registry (.ok (Text.encode switchedText))) =
      some .wrongKind := by decide +kernel
  have hbyte : (Text.decode ⟨#[0xff]⟩).toOption = none := by decide +kernel
  refine ⟨run_compile_of_fault (usual here) (by simp) ?_ true, ?_⟩
  · rw [hreply, eq_error_of_misfit? hkey]
  · cases hdecode : Text.decode ⟨#[0xff]⟩ with
    | ok text =>
      rw [hdecode] at hbyte
      cases hbyte
    | error e =>
      refine ⟨e, run_compile_of_fault (usual here) (by simp) ?_ true⟩
      rw [hreply, registryOf, ofBytes, hdecode]
      rfl

end Project
end Acceptance

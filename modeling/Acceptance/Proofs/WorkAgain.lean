import Acceptance.Proofs.Removals
/-!
Work that is done again. When the files of a spec are as its work leaves them, to do the work once
more changes nothing. This is so after all specs are compiled, for the other specs and pruning leave
these files alone.
-/
namespace Acceptance

open Script

variable {reply : Except FileError ByteArray}

namespace Tree

variable {t t' u : Tree} {d p : Path} {l : Location} {ways : Location → Prop}

theorem walk_append (t : Tree) (l : Location) (ms ns : List String) :
    t.walk l (ms ++ ns) = t.walk l ms >>= fun m => t.walk m ns := by
  induction ms generalizing l with
  | nil => rfl
  | cons name ms ih =>
    rw [List.cons_append, walk, walk]
    cases t.get? l with
    | none => rfl
    | some e =>
      cases e with
      | file bytes => rfl
      | dir =>
        dsimp only
        split
        · exact ih _
        · split
          · rfl
          · exact ih _

/-- Whoever looks for a file in the directory gets there, unless something on the way is missing:
nothing else is in the way. -/
def Clear (t : Tree) (d : Path) : Prop :=
  ∀ name cause, name.utf8ByteSize ≤ maxNameSize → t.walk [] (d.names ++ [name]) = .error cause →
    cause = .notFound

theorem Leads.clear (h : t.Leads d) : t.Clear d := by
  intro name cause hname hwalk
  have hok : t.walk [] (d.names ++ [name]) = .ok (follow [] (d.names ++ [name])) := by
    refine walk_eq_ok.2 ⟨rfl, List.forall_mem_append.2 ⟨h.fits, ?_⟩, ?_⟩
    · exact List.forall_mem_singleton.2 (.inr hname)
    · rw [passed_append]
      exact h.way
  cases hok.symm.trans hwalk

theorem Clear.under (h : t.Clear d) (hu : Under (fun _ => True) u t) : u.Clear d := by
  intro name cause hname hwalk
  exact (hu.walk_error (fun _ _ => trivial) hwalk).elim id (h name cause hname)

/-- If one name is looked for in vain then so is every other, for the same cause. -/
theorem walk_error_of_name {ns : List String} {a b : String} {cause : OsCause}
    (ha : a.utf8ByteSize ≤ maxNameSize) (h : t.walk l (ns ++ [a]) = .error cause) :
    t.walk l (ns ++ [b]) = .error cause := by
  rw [walk_append] at h ⊢
  cases hns : t.walk l ns with
  | error e =>
    rw [hns] at h
    exact h
  | ok m =>
    rw [hns] at h
    have h : t.walk m [a] = .error cause := h
    show t.walk m [b] = .error cause
    rw [walk] at h ⊢
    cases hget : t.get? m with
    | none =>
      rw [hget] at h
      exact h
    | some e =>
      rw [hget] at h
      cases e with
      | file bytes => exact h
      | dir =>
        simp only [walk, if_neg (not_lt.2 ha)] at h
        split at h <;> cases h

/-- A file that is not there can be removed for want of it. -/
theorem Clear.remove_eq (h : t.Clear p.parent) (hp : p.Proper) (husable : p.Usable)
    (hnone : t.get? p.place = none) : t.remove p = .error .notFound := by
  cases hlocate : t.locate p with
  | ok l =>
    apply remove_of_none hlocate
    rwa [locate_eq_place hlocate]
  | error cause =>
    rw [remove_of_error hlocate]
    rw [locate, if_neg (not_lt.2 husable.size), Path.names_eq hp.parts] at hlocate
    rw [h p.name cause husable.name hlocate]

theorem Under.trans (h : Under ways u t) (h' : Under ways t t') : Under ways u t' :=
  ⟨fun m hm => h'.dirs m (h.dirs m hm), fun m hway hm => h'.files m hway (h.files m hway hm)⟩

theorem under_erase (hl : l ≠ []) (t : Tree) : Under ways (t.erase l) t := by
  have hget (m : Location) (e : Entry) (hm : (t.erase l).get? m = some e) : t.get? m = some e := by
    by_cases h : m = l
    · subst h
      rw [get?_erase_self hl] at hm
      cases hm
    · rwa [get?_erase_of_ne h] at hm
  refine ⟨fun m hm => hget m _ hm, fun m _ hm => ?_⟩
  obtain ⟨bytes, hbytes⟩ := Option.ne_none_iff_exists'.1 hm
  rw [file?_eq_some.2 (hget m _ (file?_eq_some.1 hbytes))]
  exact Option.some_ne_none _

theorem under_of_get? (h : ∀ m, u.get? m = t.get? m) : Under ways u t :=
  ⟨fun m hm => h m ▸ hm, fun m _ hm => file?_congr (h m) ▸ hm⟩

/-- A group can be written again where the ways to it are there and no directory has its places. -/
theorem Writable.again {files : List (Path × String)} (h : t.Writable files)
    (hway : ∀ f ∈ files, ∀ l ∈ f.1.parent.trail, u.get? l = some .dir)
    (hclear : ∀ f ∈ files, ∀ m ∈ [f.1.place, f.1.draftPlace], u.get? m ≠ some .dir) :
    u.Writable files where
  way f hf := ⟨(h.way f hf).flaw, (h.way f hf).size, (h.way f hf).fits,
    fun l hl => file?_of_dir (hway f hf l hl)⟩
  usable := h.usable
  clear f hf m hm := ⟨hclear f hf m hm, (h.clear f hf m hm).2⟩

/-- To write what is there changes nothing. -/
theorem Wrote.get?_eq {files : List (Path × String)} (h : t.Wrote t' files)
    (hway : ∀ f ∈ files, ∀ l ∈ f.1.parent.trail, t.get? l = some .dir)
    (hset : ∀ f ∈ files, t.get? f.1.place = some (.file (Text.encode f.2)))
    (hdraft : ∀ f ∈ files, t.get? f.1.draftPlace = none) (m : Location) : t'.get? m = t.get? m := by
  by_cases hm : ∃ f ∈ files, m = f.1.place ∨ m = f.1.draftPlace ∨ m ∈ f.1.parent.trail
  · obtain ⟨f, hf, rfl | rfl | hm⟩ := hm
    · rw [hset f hf]
      exact file?_eq_some.1 (h.target f hf)
    · rw [hdraft f hf]
      exact h.gone f hf
    · rw [hway f hf m hm]
      exact h.way f hf m hm
  · refine h.kept m fun f hf => ⟨?_, ?_, ?_⟩
    · exact fun hplace => hm ⟨f, hf, .inl hplace⟩
    · exact fun hplace => hm ⟨f, hf, .inr (.inl hplace)⟩
    · exact fun htrail => hm ⟨f, hf, .inr (.inr htrail)⟩

end Tree

namespace Script

variable {w w' v : World} {p : Path} {ps : List Path} {files : List (Path × String)}
  {stale : List Path}

theorem clear_of_removeIfThere (hp : p.Proper) (h : (removeIfThere p).Does w () w') :
    w.tree.Clear p.parent := by
  intro name cause hname hwalk
  have hwalk := Tree.walk_error_of_name (b := p.name) hname hwalk
  rw [← Path.names_eq hp.parts] at hwalk
  have hremove : w.tree.remove p = .error .nameTooLong ∨ w.tree.remove p = .error cause := by
    by_cases hlong : p.text.utf8ByteSize > Tree.maxPathSize
    · exact .inl (Tree.remove_of_error (by rw [Tree.locate, if_pos hlong]))
    · exact .inr (Tree.remove_of_error (by rw [Tree.locate, if_neg hlong, hwalk]))
  obtain ⟨-, ⟨t, hok, -⟩ | ⟨hmissing, -⟩⟩ := does_removeIfThere.1 h
  · rcases hremove with hremove | hremove <;> cases hremove.symm.trans hok
  · rcases hremove with hremove | hremove
    · cases hremove.symm.trans hmissing
    · exact Except.error.inj (hremove.symm.trans hmissing)

theorem under_removeIfThere (h : (removeIfThere p).Does w () w') :
    Tree.Under (fun _ => True) w'.tree w.tree := by
  obtain ⟨-, ⟨t, hok, rfl⟩ | ⟨-, rfl⟩⟩ := does_removeIfThere.1 h
  · obtain ⟨l, -, hfile, rfl⟩ := Tree.remove_eq_ok.1 hok
    apply Tree.under_erase
    rintro rfl
    exact hfile (Tree.file?_of_dir rfl)
  · exact Tree.under_of_get? fun _ => rfl

theorem under_removals (h : (ps.forM removeIfThere).Does w () w') :
    Tree.Under (fun _ => True) w'.tree w.tree := by
  induction ps generalizing w with
  | nil =>
    obtain rfl := does_forM_nil.1 h
    exact Tree.under_of_get? fun _ => rfl
  | cons p ps ih =>
    obtain ⟨w₁, hp, hps⟩ := does_forM_cons.1 h
    exact (ih hps).trans (under_removeIfThere hp)

theorem clear_of_removals (h : (ps.forM removeIfThere).Does w () w') (hmem : p ∈ ps)
    (hp : p.Proper) : w'.tree.Clear p.parent := by
  induction ps generalizing w with
  | nil => cases hmem
  | cons q ps ih =>
    obtain ⟨w₁, hq, hps⟩ := does_forM_cons.1 h
    rcases List.mem_cons.1 hmem with rfl | hmem
    · exact (clear_of_removeIfThere hp hq).under (under_removals h)
    · exact ih hps hmem

/-- What is stale is removed, or it is written. Both need a way without anything in it. -/
theorem clear_of_writeGroup (h : (writeGroup files stale).Does w () w') (ha : Apart files)
    (hmem : p ∈ stale) (hp : p.Proper) : w'.tree.Clear p.parent := by
  obtain ⟨w₁, hput, hremove⟩ := does_writeGroup.1 h
  by_cases hfile : files.any (·.1 = p) = true
  · obtain ⟨f, hf, hfp⟩ := List.any_eq_true.1 hfile
    obtain rfl := of_decide_eq_true hfp
    have hleads : w₁.tree.Leads f.1.parent :=
      ⟨((hput.writable ha).way f hf).fits, (hput.wrote ha).way f hf⟩
    exact hleads.clear.under (under_removals hremove)
  · refine clear_of_removals hremove (List.mem_filter.2 ⟨hmem, ?_⟩) hp
    rw [Bool.not_eq_true] at hfile
    rw [hfile]
    rfl

/-- Where all that a group sets is as it sets it, nothing changes if the group is written. -/
theorem exists_writeGroup_again {t : Tree} (ha : Apart files) (hfiles : t.Writable files)
    (hway : ∀ f ∈ files, ∀ l ∈ f.1.parent.trail, v.tree.get? l = some .dir)
    (hset : ∀ c ∈ groupSets files stale, v.tree.get? c.1 = c.2.map .file)
    (hstale : ∀ p ∈ stale, p.Proper ∧ p.Usable ∧ v.tree.Clear p.parent) :
    ∃ v', (writeGroup files stale).Does v () v' ∧ ∀ m, v'.tree.get? m = v.tree.get? m := by
  have hswap (f : Path × String) (hf : f ∈ files) (c : Location × Option ByteArray)
      (hc : c ∈ swapChanges f) : v.tree.get? c.1 = c.2.map .file :=
    hset c (List.mem_append_left _ (List.mem_flatMap.2 ⟨f, hf, hc⟩))
  have hplace (f : Path × String) (hf : f ∈ files) :
      v.tree.get? f.1.place = some (.file (Text.encode f.2)) := hswap f hf _ (.head _)
  have hdraft (f : Path × String) (hf : f ∈ files) : v.tree.get? f.1.draftPlace = none :=
    hswap f hf (f.1.draftPlace, none) (.tail _ (.head _))
  have hwritable : v.tree.Writable files := by
    refine hfiles.again hway fun f hf m hm => ?_
    rcases List.mem_pair.1 hm with rfl | rfl
    · simp [hplace f hf]
    · simp [hdraft f hf]
  obtain ⟨v', hput⟩ := does_putGroup hwritable ha
  have hsame := (hput.wrote ha).get?_eq hway hplace hdraft
  refine ⟨v', does_writeGroup.2 ⟨v', hput, Project.does_removals_of_missing fun p hp => ?_⟩, hsame⟩
  obtain ⟨hproper, husable, hclear⟩ := hstale p (List.mem_of_mem_filter hp)
  have hnone : v'.tree.get? p.place = none := by
    rw [hsame]
    exact hset (p.place, none) (List.mem_append_right _ (List.mem_map_of_mem hp))
  have hmissing := (hclear.under (Tree.under_of_get? hsame)).remove_eq hproper husable hnone
  exact does_removeIfThere.2 ⟨husable.flaw, .inr ⟨hmissing, rfl⟩⟩

theorem does_forM_last {α : Type} {f : α → Script PUnit} {as : List α}
    (h : (as.forM f).Does w ⟨⟩ w') (hne : as ≠ []) : ∃ a ∈ as, ∃ v, (f a).Does v ⟨⟩ w' := by
  rcases as.eq_nil_or_concat' with rfl | ⟨bs, a, rfl⟩
  · exact absurd rfl hne
  · obtain ⟨v, -, hlast⟩ := does_forM_append.1 h
    obtain ⟨w₁, ha, hnil⟩ := does_forM_cons.1 hlast
    obtain rfl := does_forM_nil.1 hnil
    exact ⟨a, by simp, v, ha⟩

end Script

namespace Project

open Places

variable {root : Path} {settings : Settings} {s : Places root settings} {slug : String}
  {r : Registry} {c : Claimant} {j : Job} {work : Work} {w w' v : World} {m : Location}

/-! The work for a spec. -/

/-- With emission the module and the manifest of a spec are written or taken away. -/
theorem work_cases {read : Path → Except FileError ByteArray}
    (h : jobOf root r true read c = .ok j) :
    j.work = .drop ∨ ∃ files, j.work = .write files [.tests, .manifest] := by
  rcases workOf_cases (jobOf_eq_ok.1 h).2 with ⟨-, -, hdrop⟩ | ⟨_, _, _, -, -, -, hmade⟩
  · exact .inl hdrop
  · rcases hmade with ⟨-, hwrite⟩ | ⟨m, -, -, hwrite⟩
    · exact .inr ⟨_, hwrite⟩
    · exact .inr ⟨_, hwrite⟩

theorem does_drop : (Work.drop.script s slug).Does w () w' ↔
    ∃ b, planFileOf (replyOf w (s.path .plan slug)) = .ok b ∧
      (writeGroup [] ([s.path .tests slug, s.path .manifest slug] ++
        if b then [s.path .plan slug] else [])).Does w () w' := by
  have hscript : Work.drop.script s slug = isPlanFile (s.path .plan slug) >>= fun b =>
      writeGroup [] ([s.path .tests slug, s.path .manifest slug] ++
        if b then [s.path .plan slug] else []) := rfl
  rw [hscript, does_bind]
  constructor
  · rintro ⟨b, w₁, hlook, h⟩
    obtain ⟨hb, rfl⟩ := does_isPlanFile.1 hlook
    exact ⟨b, hb, h⟩
  · rintro ⟨b, hb, h⟩
    exact ⟨b, w, does_isPlanFile.2 ⟨hb, rfl⟩, h⟩

theorem clear_of_work (hwork : work = .drop ∨ ∃ files, work = .write files [.tests, .manifest])
    (hmarked : work.Marked) (h : (work.script s slug).Does w () w') : w'.tree.Clear s.tests := by
  have hparent : (s.path .tests slug).parent = s.tests := parent_path
  rw [← hparent]
  rcases hwork with rfl | ⟨files, rfl⟩
  · obtain ⟨b, -, h⟩ := does_drop.1 h
    exact clear_of_writeGroup h ⟨by simp, .nil, by simp⟩ (List.mem_append_left _ (.head _))
      proper_path
  · exact clear_of_writeGroup h (apart_paths (nodup_files hmarked)) (.head _) proper_path

/-- Where the files of a spec are as its work leaves them, the work can be done again and changes
nothing. -/
theorem exists_work_again (hwork : work = .drop ∨ ∃ files, work = .write files [.tests, .manifest])
    (hmarked : work.Marked) (hdone : (work.script s slug).Does w () w') (hfits : s.Fits slug)
    (hlook : work = .drop → planFileOf (replyOf v (s.path .plan slug)) = .ok false)
    (hset : ∀ c ∈ work.sets s slug reply, v.tree.get? c.1 = c.2.map .file)
    (hway : ∀ f ∈ work.files, ∀ l ∈ (s.dir f.1).trail, v.tree.get? l = some .dir)
    (hclear : v.tree.Clear s.tests) :
    ∃ v', (work.script s slug).Does v () v' ∧ ∀ m, v'.tree.get? m = v.tree.get? m := by
  have hstale : ∀ p ∈ [s.path .tests slug, s.path .manifest slug],
      p.Proper ∧ p.Usable ∧ v.tree.Clear p.parent := by
    intro p hp
    rcases List.mem_pair.1 hp with rfl | rfl
    · exact ⟨proper_path, (hfits.usable .tests).1, by rwa [parent_path]⟩
    · exact ⟨proper_path, (hfits.usable .manifest).1, by rwa [parent_path]⟩
  rcases hwork with rfl | ⟨files, rfl⟩
  · have hset : ∀ c ∈ groupSets [] [s.path .tests slug, s.path .manifest slug],
        v.tree.get? c.1 = c.2.map .file := by
      intro c hc
      apply hset
      rcases List.mem_pair.1 hc with rfl | rfl <;> simp [Work.sets, Work.stale, Work.files, groupSets]
    have hnone : v.tree.Writable [] := ⟨by simp, by simp, by simp⟩
    obtain ⟨v', h, hsame⟩ :=
      exists_writeGroup_again ⟨by simp, .nil, by simp⟩ hnone (by simp) hset hstale
    exact ⟨v', does_drop.2 ⟨false, hlook rfl, h⟩, hsame⟩
  · obtain ⟨w₁, hput, -⟩ := does_writeGroup.1 hdone
    have ha : Apart (files.map fun f => (s.path f.1 slug, f.2)) := apart_paths (nodup_files hmarked)
    have hway : ∀ f ∈ files.map fun f => (s.path f.1 slug, f.2),
        ∀ l ∈ f.1.parent.trail, v.tree.get? l = some .dir := by
      refine List.forall_mem_map.2 fun f hf => ?_
      rw [parent_path]
      exact hway f hf
    exact exists_writeGroup_again ha (hput.writable ha) hway hset hstale

/-! Pruning. -/

section Pruning

variable {P : Location → Prop} {t : Tree} {keep live : List String}

/-- Scripts that only remove files leave less in the way, and keep what they do not remove. -/
theorem maintains_of_removes {α : Type} {c : Script α}
    (h : c.Asks (fun op => ∃ p, op = .remove p ∧ ¬P p.place) fun _ => True) :
    c.Maintains fun v => t.KeepsAt P v.tree ∧ Tree.Under (fun _ => True) v.tree t := by
  refine .of_asks ?_ h
  rintro _ v ⟨p, rfl, hp⟩ ⟨hkeeps, hunder⟩
  have hspares : (Op.remove p).SparesAt P := hp
  refine ⟨hkeeps.trans (hspares.perform v), Tree.Under.trans ?_ hunder⟩
  rcases Op.perform_cases (.remove p) v with hsame | ⟨q, hq, -⟩ | ⟨q, _, hq, -⟩ | ⟨q, _, _, hq, -⟩ |
    ⟨q, -, hdir, herase⟩
  · rw [hsame]
    exact Tree.under_of_get? fun _ => rfl
  · cases hq
  · cases hq
  · cases hq
  · rw [herase]
    apply Tree.under_erase
    intro hroot
    rw [hroot] at hdir
    exact hdir rfl

/-- Pruning leaves alone what is to be kept, and adds nothing. -/
theorem keepsAt_of_prune {names : List String} {w₁ : World}
    (htests : ∀ slug, Part.tests.file slug ∉ keep →
      ¬P (s.path .tests slug).place ∧ ¬P (s.path .manifest slug).place)
    (hplans : ∀ slug, Part.plan.file slug ∉ live → ¬P (s.path .plan slug).place)
    (h : (pruneTests s.tests keep).Does w names w₁) (h' : (prunePlans s.plans live).Does w₁ () w') :
    w.tree.KeepsAt P w'.tree ∧ Tree.Under (fun _ => True) w'.tree w.tree := by
  have hmodules : (pruneTests s.tests keep).Maintains fun v =>
      w.tree.KeepsAt P v.tree ∧ Tree.Under (fun _ => True) v.tree w.tree := by
    refine maintains_pruneTests_of fun slug => ?_
    unfold pruneTest
    split
    · exact fun _ => id
    · next hkeep =>
      obtain ⟨hmodule, hmanifest⟩ := htests slug (by simpa using hkeep)
      refine maintains_isGenerated.bind' fun _ b _ _ => ?_
      cases b with
      | false => exact fun _ => id
      | true =>
        rw [manifestBeside_path]
        refine maintains_of_removes (Asks.bind (asks_remove ⟨_, rfl, hmodule⟩) fun _ _ => ?_)
        exact Asks.bind (asks_removeIfThere ⟨_, rfl, hmanifest⟩) fun _ _ => trivial
  have hrest : (prunePlans s.plans live).Maintains fun v =>
      w.tree.KeepsAt P v.tree ∧ Tree.Under (fun _ => True) v.tree w.tree := by
    refine maintains_prunePlans_of fun slug => ?_
    unfold prunePlan
    split
    · exact fun _ => id
    · next hlive =>
      refine maintains_isPlanFile.bind' fun _ b _ _ => ?_
      cases b with
      | false => exact fun _ => id
      | true =>
        exact maintains_of_removes (asks_remove ⟨_, rfl, hplans slug (by simpa using hlive)⟩)
  have hbegin := hmodules w ⟨.refl _, Tree.under_of_get? fun _ => rfl⟩
  rw [h] at hbegin
  have hend := hrest w₁ hbegin
  rwa [h'] at hend

end Pruning

/-! Runs. -/

section Runs

variable {specs : List Claimant} {jobs : List Job} {w₁ : World} {report : Report String Nat}

theorem Run.keepsAt {P : Location → Prop} (h : Run s r true w specs jobs w₁ report w')
    (htests : ∀ slug, Part.tests.file slug ∉ jobs.filterMap (·.report.output) →
      ¬P (s.path .tests slug).place ∧ ¬P (s.path .manifest slug).place)
    (hplans : ∀ slug ∉ jobs.map (·.slug), ¬P (s.path .plan slug).place) :
    w₁.tree.KeepsAt P w'.tree ∧ Tree.Under (fun _ => True) w'.tree w₁.tree := by
  obtain ⟨pruned, w₂, hmodules, hrest, -⟩ := (finishes_iff h.slugs).1 h.ended
  exact keepsAt_of_prune htests (fun slug hslug => hplans slug fun hmem => hslug (mem_plans.2 hmem))
    hmodules hrest

theorem exists_interleaves_jobs (h : (jobs.forM (Job.script s)).Does w () w') :
    ∃ schedule, Interleaves schedule (jobs.map (Job.call s)) w (jobs.map (·.report)) w' := by
  apply Does.exists_interleaves
  induction jobs generalizing w with
  | nil => exact does_mapM_nil.2 ⟨rfl, does_forM_nil.1 h⟩
  | cons j jobs ih =>
    obtain ⟨w₁, hj, hjobs⟩ := does_forM_cons.1 h
    exact does_mapM_cons.2 ⟨j.report, _, w₁, does_call hj, ih hjobs, rfl⟩

/-- What is not a file of a spec is kept. -/
theorem Run.keepsOthers (h : Run s r true w specs jobs w₁ report w') :
    w.tree.KeepsAt (fun m => ∀ slug, ¬s.Own slug m) w'.tree := by
  obtain ⟨schedule, hrun⟩ := exists_interleaves_jobs h.done
  obtain ⟨hjobs, -⟩ := tree_of_interleaves hrun
  have hpruned : w₁.tree.KeepsAt (fun m => ∀ slug, ¬s.Own slug m) w'.tree := by
    refine (h.keepsAt (fun slug _ => ⟨?_, ?_⟩) fun slug _ => ?_).1
    all_goals exact fun hnone => hnone slug own_place
  exact .trans ⟨hjobs.dirs, fun m hm => hjobs.files m fun j _ => hm j.slug⟩ hpruned

/-- What a job has written besides a plan belongs to a module that its report tells of. -/
theorem output_of_mem_files (hfull : j.Full) (hmarked : j.work.Marked) {f : Part × String}
    (hf : f ∈ j.work.files) (hpart : f.1 ≠ .plan) :
    j.report.output = some (Part.tests.file j.slug) := by
  have hcode (code : String) (hmem : (.tests, code) ∈ j.work.files) :
      j.report.output = some (Part.tests.file j.slug) :=
    hfull.output (some (Text.encode code)) (mem_changes_of_mem_files hmem)
  obtain ⟨part, text⟩ := f
  cases part with
  | plan => exact absurd rfl hpart
  | tests => exact hcode text hf
  | manifest =>
    cases hwork : j.work with
    | write files stale =>
      rw [hwork] at hf hmarked hcode
      obtain ⟨code, hmem⟩ := hmarked.beside text hf
      exact hcode code hmem
    | drop =>
      rw [hwork] at hf
      cases hf
    | rest =>
      rw [hwork] at hf
      cases hf

/-- The files of a spec that are never pruned: its plan, and all of them if it has a module. -/
def Lasting (s : Places root settings) (jobs : List Job) (slug : String) (m : Location) : Prop :=
  m = (s.path .plan slug).place ∨
    Part.tests.file slug ∈ jobs.filterMap (·.report.output) ∧ s.Own slug m

theorem Run.lasting (h : Run s r true w specs jobs w₁ report w')
    (hne : s.plans.place ≠ s.tests.place) (hj : j ∈ jobs) :
    w₁.tree.KeepsAt (Lasting s jobs j.slug) w'.tree ∧
      Tree.Under (fun _ => True) w'.tree w₁.tree := by
  have hmodule (slug : String) (part : Part) (hpart : part ≠ .plan)
      (hout : Part.tests.file slug ∉ jobs.filterMap (·.report.output)) :
      ¬Lasting s jobs j.slug (s.path part slug).place := by
    rintro (hplace | ⟨hmem, hown⟩)
    · exact hpart (place_path_injective hne hplace).1
    · rw [hown.slug_eq hne own_place] at hmem
      exact hout hmem
  apply h.keepsAt
  · exact fun slug hslug => ⟨hmodule slug .tests (by simp) hslug, hmodule slug .manifest (by simp) hslug⟩
  · intro slug hslug hlasting
    have hslug' : j.slug = slug := by
      rcases hlasting with hplace | ⟨-, hown⟩
      · exact (place_path_injective hne hplace).2.symm
      · exact hown.slug_eq hne own_place
    exact hslug (hslug' ▸ List.mem_map_of_mem hj)

/-- After a run all is as the work for a spec sets it. -/
theorem Run.get?_of_sets (h : Run s r true w specs jobs w₁ report w')
    (hne : s.plans.place ≠ s.tests.place) (hj : j ∈ jobs) (hsettled : Settled s jobs w w₁)
    (hreply : reply = replyOf w (s.path .plan j.slug))
    (hplaces : ∀ m, j.work.At s j.slug reply m → w.tree.get? m ≠ some .dir) (hfits : s.Fits j.slug)
    (c : Location × Option ByteArray) (hc : c ∈ j.work.sets s j.slug reply) :
    w'.tree.get? c.1 = c.2.map .file := by
  obtain ⟨m, value⟩ := c
  obtain ⟨hkeeps, hunder⟩ := h.lasting hne hj
  have hown : s.Own j.slug m := Work.At.own ⟨_, hc, rfl⟩
  have hset : w₁.tree.file? m = value := (hsettled.own j hj).set _ (hreply ▸ hc) hown
  cases value with
  | none =>
    have hfile : w'.tree.file? m = none := by
      by_contra hthere
      exact hunder.files m trivial hthere hset
    -- a directory would be on the way of some job
    refine (Tree.get?_of_file?_eq_none hfile).resolve_right fun hdir => ?_
    rcases (hsettled.dirs m).1 (hunder.dirs m hdir) with hdir | ⟨k, -, f, -, hm⟩
    · exact hplaces m ⟨_, hc, rfl⟩ hdir
    · exact hfits.offWay m hown ⟨f.1, hm⟩
  | some bytes =>
    obtain ⟨_, hmem, hplace, -⟩ := mem_groupSets_some.1 hc
    obtain ⟨f, hf, rfl⟩ := List.mem_map.1 hmem
    have hlasting : Lasting s jobs j.slug m := by
      by_cases hpart : f.1 = .plan
      · exact .inl (hpart ▸ hplace)
      · have houtput := output_of_mem_files (h.full j hj) (h.marked j hj) hf hpart
        exact .inr ⟨List.mem_filterMap.2 ⟨j, hj, houtput⟩, hown⟩
    exact Tree.file?_eq_some.1 ((hkeeps.files m hlasting).trans hset)

theorem mem_sets_drop {b : Bool} (h : planFileOf reply = .ok b) {c : Location × Option ByteArray} :
    c ∈ Work.drop.sets s slug reply ↔
      ∃ part ∈ [Part.tests, .manifest] ++ if b then [.plan] else [],
        c = ((s.path part slug).place, none) := by
  have hsets : Work.drop.sets s slug reply =
      ([Part.tests, .manifest] ++ if b then [Part.plan] else []).map
        fun part => ((s.path part slug).place, none) := by
    rw [Work.sets, stale_drop h]
    cases b <;> simp [groupSets, Work.files]
  rw [hsets, List.mem_map]
  simp only [eq_comm]

/-- A plan that work takes away is not taken for one again. -/
theorem Run.planFileOf_of_drop (h : Run s r true w specs jobs w₁ report w')
    (hne : s.plans.place ≠ s.tests.place) (hj : j ∈ jobs) (hsettled : Settled s jobs w w₁)
    (hdrop : j.work = .drop) (hway : w.tree.Paved (s.path .plan j.slug)) {b : Bool}
    (hlook : planFileOf (replyOf w (s.path .plan j.slug)) = .ok b) :
    planFileOf (replyOf w' (s.path .plan j.slug)) = .ok false := by
  obtain ⟨hkeeps, -⟩ := h.lasting hne hj
  have hsets := hsettled.own j hj
  rw [hdrop] at hsets
  have hfile : w'.tree.file? (s.path .plan j.slug).place = w₁.tree.file? (s.path .plan j.slug).place :=
    hkeeps.files _ (.inl rfl)
  cases b with
  | true =>
    rw [hsets.set _ ((mem_sets_drop hlook).2 ⟨.plan, by simp, rfl⟩) own_place] at hfile
    obtain ⟨e, he, -⟩ := replyOf_of_none hfile
    rw [he]
    exact planFileOf_of_error e
  | false =>
    have hkept : w.tree.KeepsAt (· = (s.path .plan j.slug).place) w'.tree := by
      refine ⟨fun m hm => hkeeps.dirs m (hsets.dirs m hm), ?_⟩
      rintro m rfl
      rw [hfile]
      refine hsets.kept _ own_place fun c hc hplace => ?_
      obtain ⟨part, hpart, rfl⟩ := (mem_sets_drop hlook).1 hc
      obtain rfl := part_of_place hplace
      simp at hpart
    rw [planFileOf_replyOf hkept proper_path rfl hway, hlook]

/-- After a run the work for any of its specs can be done again, and changes nothing. -/
theorem Run.again (h : Run s r true w specs jobs w₁ report w') (hne : s.plans.place ≠ s.tests.place)
    (hw : w.tree.Sound) (hway : s.Straight w.tree) (hj : j ∈ jobs) (hfits : s.Fits j.slug) :
    ∃ w'', (j.script s).Does w' () w'' ∧ ∀ m, w''.tree.get? m = w'.tree.get? m := by
  have hmarked := h.marked j hj
  have hcases (j : Job) (hj : j ∈ jobs) :
      j.work = .drop ∨ ∃ files, j.work = .write files [.tests, .manifest] := by
    obtain ⟨c, -, hjob⟩ := exists_of_mem_mapM h.decided j hj
    exact work_cases hjob
  obtain ⟨schedule, hrun⟩ := exists_interleaves_jobs h.done
  obtain ⟨-, hsettled⟩ := settled_of_interleaves hne h.nodup h.marked (fun _ _ => hway.paved hw) hrun
  obtain ⟨i, hi⟩ := List.mem_iff_getElem?.1 hj
  obtain ⟨-, w₂, hamid, -⟩ := amid_of_interleaves hne h.nodup hrun hi
  obtain ⟨-, -, -, hlook⟩ := Amid.of_work hamid own_place (hway.paved hw)
  obtain ⟨hkeeps, hunder⟩ := h.lasting hne hj
  obtain ⟨us, hus⟩ := does_forM.1 h.done
  obtain ⟨u, ⟨⟩, u', hdone⟩ := does_of_mem_mapM hus j hj
  refine exists_work_again (hcases j hj) hmarked hdone hfits (fun hdrop => ?_)
    (h.get?_of_sets hne hj hsettled rfl (fun m => place_of_amid hamid hmarked hw hway) hfits) ?_ ?_
  · obtain ⟨b, hb⟩ := hlook hdrop
    exact h.planFileOf_of_drop hne hj hsettled hdrop (hway.paved hw) hb
  · intro f hf l hl
    exact hkeeps.dirs l ((hsettled.dirs l).2 (.inr ⟨j, hj, f, hf, hl⟩))
  · -- the last job has been in the directory for tests
    obtain ⟨k, hk, v, hlast⟩ := does_forM_last h.done (List.ne_nil_of_mem hj)
    exact (clear_of_work (hcases k hk) (h.marked k hk) hlast).under hunder

end Runs

end Project

end Acceptance

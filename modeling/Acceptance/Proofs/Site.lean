import Acceptance.Project.Settings
import Acceptance.Proofs.FileChanges
import Acceptance.Proofs.Marks
/-!
Where the files of a project are, and what is true of the directories for plans and tests as long as
only the project writes there: each file in them is one of a spec, bears its mark, can be found by
its path, and no manifest is without its module.
-/
namespace Acceptance.Project

open Script

/-- What is written for a spec. -/
inductive Part
  | plan
  | tests
  | manifest
  deriving DecidableEq

/-- The name of a file of the spec with a slug. -/
def Part.file (part : Part) (slug : String) : String :=
  match part with
  | .plan => Emission.planFile slug
  | .tests => Emission.moduleFile slug
  | .manifest => Emission.manifestFile slug

/-- Neither location is the other or inside it. -/
def Beside (l m : Location) : Prop := ¬l <+: m ∧ ¬m <+: l

/-- The places that the settings of a project give. -/
structure Places (root : Path) (settings : Settings) where
  specs : Path
  plans : Path
  tests : Path
  registry : Path
  specs_eq : Settings.place root settings.specsDir = .ok specs
  plans_eq : Settings.place root settings.planDir = .ok plans
  tests_eq : Settings.place root settings.outputDir = .ok tests
  registry_eq : Settings.place root settings.registry = .ok registry

namespace Places

variable {root : Path} {settings : Settings} (s : Places root settings)

def dir : Part → Path
  | .plan => s.plans
  | .tests => s.tests
  | .manifest => s.tests

def path (part : Part) (slug : String) : Path := (s.dir part).child (part.file slug)

end Places

/-- Three directories beside each other, and a registry that is not in the directories that are
written to. -/
structure Site (root : Path) (settings : Settings) extends Places root settings where
  specs_plans : Beside specs.place plans.place
  specs_tests : Beside specs.place tests.place
  plans_tests : Beside plans.place tests.place
  registry_plans : ¬plans.place <+: registry.place
  registry_tests : ¬tests.place <+: registry.place

namespace Part

/-- How the names of a part's files start and end. -/
def start : Part → List Char
  | .plan => []
  | .tests => "test_".toList
  | .manifest => "test_".toList

def ending : Part → List Char
  | .plan => ".json".toList
  | .tests => ".py".toList
  | .manifest => ".json".toList

theorem toList_file (part : Part) (slug : String) :
    (part.file slug).toList = part.start ++ (slug.toList ++ part.ending) := by
  cases part <;>
    simp [file, start, ending, Emission.planFile, Emission.moduleFile, Emission.manifestFile, toString]

variable {a b : String}

theorem file_injective {part : Part} (h : part.file a = part.file b) : a = b := by
  have hlist := congrArg String.toList h
  rw [toList_file, toList_file, List.append_cancel_left_eq, List.append_cancel_right_eq] at hlist
  exact String.toList_inj.1 hlist

theorem getLast?_file (part : Part) (slug : String) :
    (part.file slug).toList.getLast? = part.ending.getLast? := by
  rw [toList_file, ← List.append_assoc]
  cases part <;> simp [ending]

theorem file_ne_up (part : Part) (slug : String) : part.file slug ≠ ".." := by
  intro h
  have hlast := getLast?_file part slug
  rw [h] at hlast
  cases part <;> simp [ending] at hlast

/-- The plan of one spec can have the name of the manifest of another. -/
theorem plan_file_eq_iff : Part.plan.file a = Part.manifest.file b ↔ a = "test_" ++ b := by
  rw [← String.toList_inj, toList_file, toList_file, ← String.toList_inj, String.toList_append]
  change a.toList ++ ".json".toList = "test_".toList ++ (b.toList ++ ".json".toList) ↔ _
  rw [← List.append_assoc, List.append_left_inj]

/-- No other files of specs share a name. -/
theorem file_eq_iff {part part' : Part} : part.file a = part'.file b ↔
    part = part' ∧ a = b ∨ part = .plan ∧ part' = .manifest ∧ a = "test_" ++ b ∨
      part = .manifest ∧ part' = .plan ∧ b = "test_" ++ a := by
  have hlast : part.file a = part'.file b → part.ending.getLast? = part'.ending.getLast? := by
    intro h
    rw [← getLast?_file part a, h, getLast?_file]
  have hsame : part.file a = part.file b ↔ a = b := ⟨file_injective, fun h => h ▸ rfl⟩
  cases part <;> cases part' <;> simp [ending] at hlast hsame ⊢
  case plan.plan | tests.tests | manifest.manifest => exact hsame
  case plan.manifest => exact plan_file_eq_iff
  case manifest.plan => exact eq_comm.trans plan_file_eq_iff
  all_goals exact hlast

end Part

variable {files : List (Part × String)}

namespace Places

variable {root : Path} {settings : Settings} {s : Places root settings} {part : Part} {slug : String}

theorem proper_path : (s.path part slug).Proper := Path.proper_child (part.file_ne_up slug) _

@[simp] theorem parent_path : (s.path part slug).parent = s.dir part := Path.parent_child ..

@[simp] theorem name_path : (s.path part slug).name = part.file slug := Path.name_child ..

theorem place_path : (s.path part slug).place = (s.dir part).place ++ [part.file slug] :=
  Path.place_child (part.file_ne_up slug) _

variable {part' : Part} {slug' : String}

theorem place_path_eq_iff : (s.path part slug).place = (s.path part' slug').place ↔
    (s.dir part).place = (s.dir part').place ∧ part.file slug = part'.file slug' := by
  rw [place_path, place_path]
  constructor
  · intro h
    obtain ⟨hdir, hname⟩ := List.append_inj' h rfl
    exact ⟨hdir, List.singleton_inj.1 hname⟩
  · rintro ⟨hdir, hname⟩
    rw [hdir, hname]

theorem place_path_injective (hne : s.plans.place ≠ s.tests.place)
    (h : (s.path part slug).place = (s.path part' slug').place) : part = part' ∧ slug = slug' := by
  obtain ⟨hdir, hname⟩ := place_path_eq_iff.1 h
  rcases Part.file_eq_iff.1 hname with hsame | ⟨rfl, rfl, -⟩ | ⟨rfl, rfl, -⟩
  · exact hsame
  · exact absurd hdir hne
  · exact absurd hdir.symm hne

/-- The files of one spec are in different places. -/
theorem part_of_place (h : (s.path part slug).place = (s.path part' slug).place) : part = part' := by
  have hlonger : slug ≠ "test_" ++ slug := by
    intro h
    have hlength := congrArg String.length h
    rw [String.length_append] at hlength
    exact absurd hlength (by simp)
  rcases Part.file_eq_iff.1 (place_path_eq_iff.1 h).2 with h | h | h
  · exact h.1
  · exact absurd h.2.2 hlonger
  · exact absurd h.2.2 hlonger

theorem draftPlace_ne : (s.path part slug).draftPlace ≠ (s.path part' slug').place := by
  intro h
  rw [Path.draftPlace_eq, place_path] at h
  have hname := List.singleton_inj.1 (List.append_inj' h rfl).2
  have hlast := congrArg (fun n => n.toList.getLast?) hname
  simp only [toList_draftName, Part.getLast?_file] at hlast
  cases part' <;> simp [Part.ending, List.getLast?_cons] at hlast

theorem apart_paths (hparts : (files.map (·.1)).Nodup) :
    Apart (files.map fun f => (s.path f.1 slug, f.2)) := by
  refine ⟨List.forall_mem_map.2 fun f _ => proper_path, ?_, ?_⟩
  · rw [List.pairwise_map]
    exact (List.pairwise_map.1 hparts).imp fun hpart hplace => hpart (part_of_place hplace)
  · exact List.forall_mem_map.2 fun f _ => List.forall_mem_map.2 fun g _ => draftPlace_ne

end Places

namespace Site

open Places

variable {root : Path} {settings : Settings} (s : Site root settings)

/-- The location is in one of the directories that are written to. -/
def Inside (m : Location) : Prop := s.plans.place <+: m ∨ s.tests.place <+: m

variable {s} {part part' : Part} {slug slug' : String} {t t' : Tree} {m : Location}

theorem inside_dir (part : Part) : s.Inside (s.dir part).place := by
  cases part
  · exact .inl (List.prefix_refl _)
  · exact .inr (List.prefix_refl _)
  · exact .inr (List.prefix_refl _)

theorem Inside.append (h : s.Inside m) (names : List String) : s.Inside (m ++ names) :=
  h.imp (·.trans (List.prefix_append ..)) (·.trans (List.prefix_append ..))

theorem inside_place : s.Inside (s.path part slug).place := by
  rw [place_path]
  exact (inside_dir part).append _

theorem inside_draftPlace : s.Inside (s.path part slug).draftPlace := by
  rw [Path.draftPlace_eq, parent_path]
  exact (inside_dir part).append _

theorem plans_ne_tests : s.plans.place ≠ s.tests.place :=
  fun h => s.plans_tests.1 (h ▸ List.prefix_refl _)

theorem path_injective (h : (s.path part slug).place = (s.path part' slug').place) :
    part = part' ∧ slug = slug' := place_path_injective plans_ne_tests h

/-! Tidy directories. -/

/-- What the bytes of a file tell about it. -/
def Bears (part : Part) (bytes : ByteArray) : Prop :=
  match part with
  | .plan => IsPlanBytes bytes
  | .tests => IsTestBytes bytes
  | .manifest => True

/-- The file of a spec is found by its path and bears its mark, and if it is a manifest then its
module is there. -/
structure Owns (s : Site root settings) (t : Tree) (part : Part) (slug : String) (bytes : ByteArray) :
    Prop where
  leads : t.Leads (s.dir part)
  usable : (s.path part slug).Usable
  bears : Bears part bytes
  beside : part = .manifest → t.file? (s.path .tests slug).place ≠ none

structure Tidy (s : Site root settings) (t : Tree) : Prop where
  sound : t.Sound
  file : ∀ m bytes, s.Inside m → t.file? m = some bytes →
    ∃ part slug, m = (s.path part slug).place ∧ s.Owns t part slug bytes

namespace Tidy

theorem owns (h : s.Tidy t) {bytes : ByteArray}
    (hfile : t.file? (s.path part slug).place = some bytes) : s.Owns t part slug bytes := by
  obtain ⟨part', slug', hplace, howns⟩ := h.file _ bytes inside_place hfile
  obtain ⟨rfl, rfl⟩ := path_injective hplace
  exact howns

theorem reaches (h : s.Tidy t) : t.Reaches (s.path part slug) := by
  intro hfile
  obtain ⟨bytes, hbytes⟩ := Option.ne_none_iff_exists'.1 hfile
  have howns := h.owns hbytes
  rw [parent_path]
  exact ⟨howns.leads, howns.usable⟩

theorem draft (h : s.Tidy t) : t.file? (s.path part slug).draftPlace = none := by
  cases hfile : t.file? (s.path part slug).draftPlace with
  | none => rfl
  | some bytes =>
    obtain ⟨part', slug', hplace, -⟩ := h.file _ bytes inside_draftPlace hfile
    exact absurd hplace draftPlace_ne

end Tidy

/-- A tree with nothing in the directories that are written to is tidy. -/
theorem tidy_of_empty (hs : t.Sound) (h : ∀ m, s.Inside m → t.file? m = none) : s.Tidy t := by
  refine ⟨hs, fun m bytes hm hfile => ?_⟩
  rw [h m hm] at hfile
  cases hfile

/-- Changes to files of specs that keep the marks, where module and manifest come and go
together. -/
structure Orderly (s : Site root settings) (cs : Changes) : Prop where
  known : ∀ c ∈ cs, ∃ part slug, c.1 = s.path part slug ∧ ∀ bytes, c.2 = some bytes → Bears part bytes
  dropped : ∀ slug, (s.path .tests slug, none) ∈ cs → (s.path .manifest slug, none) ∈ cs
  written : ∀ slug bytes, (s.path .manifest slug, some bytes) ∈ cs →
    ∃ code, (s.path .tests slug, some code) ∈ cs

theorem orderly_nil : s.Orderly [] := ⟨by simp, by simp, by simp⟩

/-- Changes to files of one spec. -/
def ofSlug (s : Site root settings) (slug : String) (fs : List (Part × Option ByteArray)) : Changes :=
  fs.map fun f => (s.path f.1 slug, f.2)

variable {fs : List (Part × Option ByteArray)}

theorem mem_ofSlug {bytes : Option ByteArray} (h : (s.path part slug', bytes) ∈ s.ofSlug slug fs) :
    slug = slug' ∧ (part, bytes) ∈ fs := by
  obtain ⟨f, hf, heq⟩ := List.mem_map.1 h
  obtain ⟨hpath, rfl⟩ := Prod.mk.inj heq
  obtain ⟨rfl, rfl⟩ := path_injective (congrArg Path.place hpath)
  exact ⟨rfl, hf⟩

theorem orderly_ofSlug (hbears : ∀ f ∈ fs, ∀ bytes, f.2 = some bytes → Bears f.1 bytes)
    (hdropped : (.tests, none) ∈ fs → (.manifest, none) ∈ fs)
    (hwritten : ∀ bytes, (.manifest, some bytes) ∈ fs → ∃ code, (.tests, some code) ∈ fs) :
    s.Orderly (s.ofSlug slug fs) := by
  refine ⟨List.forall_mem_map.2 fun f hf => ⟨f.1, slug, rfl, hbears f hf⟩, fun slug' h => ?_,
    fun slug' bytes h => ?_⟩
  · obtain ⟨rfl, hmem⟩ := mem_ofSlug h
    exact List.mem_map.2 ⟨_, hdropped hmem, rfl⟩
  · obtain ⟨rfl, hmem⟩ := mem_ofSlug h
    obtain ⟨code, hcode⟩ := hwritten bytes hmem
    exact ⟨code, List.mem_map.2 ⟨_, hcode, rfl⟩⟩

/-- A change at the place of a file of a spec is a change of that file. -/
theorem Orderly.eq_path {cs : Changes} (h : s.Orderly cs) {c : Path × Option ByteArray} (hc : c ∈ cs)
    (hplace : c.1.place = (s.path part slug).place) :
    c.1 = s.path part slug ∧ ∀ bytes, c.2 = some bytes → Bears part bytes := by
  obtain ⟨part', slug', hpath, hbears⟩ := h.known c hc
  rw [hpath] at hplace
  obtain ⟨rfl, rfl⟩ := path_injective hplace
  exact ⟨hpath, hbears⟩

theorem Tidy.sets {cs : Changes} (h : s.Tidy t) (hset : t.Sets t' cs) (ho : s.Orderly cs) :
    s.Tidy t' := by
  refine ⟨hset.sound h.sound, fun m bytes hm hfile => ?_⟩
  by_cases hc : ∃ c ∈ cs, c.1.place = m
  · obtain ⟨c, hc, rfl⟩ := hc
    obtain ⟨part, slug, hpath, hbears⟩ := ho.known c hc
    rw [hset.set c hc] at hfile
    obtain ⟨hleads, husable⟩ := hset.reach c hc (by simp [hfile])
    rw [hpath, parent_path] at hleads
    refine ⟨part, slug, by rw [hpath], hleads, hpath ▸ husable, hbears bytes hfile, ?_⟩
    rintro rfl
    have hmem : (s.path .manifest slug, some bytes) ∈ cs := by rwa [← hpath, ← hfile]
    obtain ⟨code, hcode⟩ := ho.written slug bytes hmem
    rw [hset.set _ hcode]
    simp
  · have hkept := hset.kept m fun c hc' hplace => hc ⟨c, hc', hplace⟩
    rw [hkept] at hfile
    obtain ⟨part, slug, rfl, howns⟩ := h.file m bytes hm hfile
    refine ⟨part, slug, rfl, howns.leads.mono fun l _ => hset.dirs l, howns.usable, howns.bears, ?_⟩
    rintro rfl
    by_cases hc' : ∃ c ∈ cs, c.1.place = (s.path .tests slug).place
    · obtain ⟨c, hmem, hplace⟩ := hc'
      have hpath := (ho.eq_path hmem hplace).1
      rw [← hplace, hset.set c hmem]
      intro hnone
      have hdropped := ho.dropped slug (by rwa [← hpath, ← hnone])
      exact hc ⟨_, hdropped, rfl⟩
    · rw [hset.kept _ fun c hmem hplace => hc' ⟨c, hmem, hplace⟩]
      exact howns.beside rfl

/-- An edit of the files that a project is written in: it keeps what is in the directories that are
written to, and it takes away no directory. -/
structure Edit (s : Site root settings) (t t' : Tree) : Prop where
  sound : t'.Sound
  inside : ∀ m, s.Inside m → t'.get? m = t.get? m
  dirs : ∀ m, t.get? m = some .dir → t'.get? m = some .dir

theorem Tidy.edit (h : s.Tidy t) (he : s.Edit t t') : s.Tidy t' := by
  refine ⟨he.sound, fun m bytes hm hfile => ?_⟩
  rw [Tree.file?_congr (he.inside m hm)] at hfile
  obtain ⟨part, slug, rfl, howns⟩ := h.file m bytes hm hfile
  refine ⟨part, slug, rfl, howns.leads.mono fun l _ => he.dirs l, howns.usable, howns.bears, ?_⟩
  intro hpart
  rw [Tree.file?_congr (he.inside _ inside_place)]
  exact howns.beside hpart

/-! Groups of files of one spec. -/

theorem Tidy.groupFits (h : s.Tidy t) (hparts : (files.map (·.1)).Nodup) (stale : List Part) :
    GroupFits t (files.map fun f => (s.path f.1 slug, f.2)) (stale.map (s.path · slug)) := by
  refine ⟨apart_paths hparts, List.forall_mem_map.2 fun f _ => h.draft,
    List.forall_mem_map.2 fun f _ => proper_path, List.forall_mem_map.2 fun f _ => h.reaches, ?_⟩
  refine List.forall_mem_map.2 fun part _ => List.forall_mem_map.2 fun f _ hplace => ?_
  rw [(path_injective hplace).1]

/-- The ways to the directories that are written to. -/
def Way (s : Site root settings) (m : Location) : Prop := m ∈ s.plans.trail ∨ m ∈ s.tests.trail

theorem way_of_mem (h : m ∈ (s.path part slug).parent.trail) : s.Way m := by
  rw [parent_path] at h
  cases part
  · exact .inl h
  · exact .inr h
  · exact .inr h

end Site
end Acceptance.Project

import Mathlib.Data.List.Nodup
import Acceptance.Json.Writer
import Acceptance.Proofs.TextOrder
import Acceptance.Value.Access
/-!
Mappings whose entries come in another order. Looking up a key does not depend on the order, so what
reads records through their keys reads them alike however their entries are arranged.
-/
namespace Acceptance.Value

variable {motive : Value → Prop}

theorem lookup?_eq_some {es : List (Value × Value)} (h : (es.map (·.1)).Nodup) {key : String}
    {v : Value} : lookup? key es = some v ↔ (.text key, v) ∈ es := by
  induction es with
  | nil => simp [lookup?]
  | cons e es ih =>
    obtain ⟨k, w⟩ := e
    obtain ⟨hk, hes⟩ := List.nodup_cons.1 h
    have hnot : (.text key, v) ∈ es → k ≠ .text key := fun hmem he =>
      hk (List.mem_map.2 ⟨_, hmem, he.symm⟩)
    by_cases hkey : k = .text key
    · subst hkey
      rw [lookup?_cons_self]
      constructor
      · rintro ⟨rfl⟩
        exact List.mem_cons_self
      · intro hmem
        rcases List.mem_cons.1 hmem with hmem | hmem
        · cases hmem
          rfl
        · exact absurd rfl (hnot hmem)
    · have hskip : lookup? key ((k, w) :: es) = lookup? key es := by
        cases k with
        | text k => exact lookup?_cons_of_ne (fun he => hkey (congrArg Value.text he)) w es
        | _ => rfl
      rw [hskip, ih hes, List.mem_cons]
      constructor
      · exact .inr
      · rintro (hmem | hmem)
        · cases hmem
          exact absurd rfl hkey
        · exact hmem

theorem lookup?_perm {es fs : List (Value × Value)} (h : es.Perm fs) (hes : (es.map (·.1)).Nodup)
    (key : String) : lookup? key es = lookup? key fs := by
  have hfs : (fs.map (·.1)).Nodup := (h.map _).nodup_iff.1 hes
  apply Option.ext
  intro v
  rw [lookup?_eq_some hes, lookup?_eq_some hfs, h.mem_iff]

theorem lookup?_fields (fields : List (String × Value)) (key : String) :
    lookup? key (fields.map fun (k, v) => (.text k, v)) = fields.lookup key := by
  induction fields with
  | nil => rfl
  | cons field fields ih =>
    obtain ⟨k, v⟩ := field
    by_cases h : key = k
    · subst h
      simp
    · have hk : k ≠ key := fun e => h e.symm
      have hbeq : (key == k) = false := by simpa using h
      simp [lookup?_cons_of_ne hk, List.lookup_cons, ih, hbeq]

/-- A mapping that has the given fields under its text keys, in any order. -/
def Shows (v : Value) (fields : List (String × Value)) : Prop :=
  ∃ es, v = .map es ∧ ∀ key, lookup? key es = fields.lookup key

theorem shows_record (fields : List (String × Value)) : Shows (.record fields) fields :=
  ⟨_, rfl, lookup?_fields fields⟩

namespace Shows

variable {v w : Value} {fields : List (String × Value)} {key : String}

theorem member? (h : Shows v fields) (key : String) : v.member? key = .ok (fields.lookup key) := by
  obtain ⟨es, rfl, hlookup⟩ := h
  rw [Value.member?, entries?_map, ← hlookup]

theorem memberD (h : Shows v fields) (hkey : fields.lookup key = some w) (fallback : Value) :
    v.memberD key fallback = .ok w := by
  rw [Value.memberD, h.member?, hkey]
  rfl

theorem item (h : Shows v fields) (hkey : fields.lookup key = some w) : v.item key = .ok w := by
  obtain ⟨es, rfl, hlookup⟩ := h
  rw [← hlookup] at hkey
  simp only [Value.item, entries?_map, hkey]

theorem isTruthy (h : Shows v fields) (key : String) (hkey : fields.lookup key = some w) :
    v.isTruthy = true := by
  obtain ⟨es, rfl, hlookup⟩ := h
  cases es with
  | nil =>
    rw [← hlookup] at hkey
    cases hkey
  | cons e es => rfl

end Shows

/-- A change of data that may put the entries of mappings in another order, and changes no text and
no truth value. -/
structure Rearranges (f : Value → Value) : Prop where
  null : f .null = .null
  text : ∀ s, f (.text s) = .text s
  boolean : ∀ b, f (.boolean b) = .boolean b
  list : ∀ vs, f (.list vs) = .list (vs.map f)
  record : ∀ fields : List (String × Value), (fields.map (·.1)).Nodup →
    Shows (f (.record fields)) (fields.map fun (k, v) => (k, f v))

theorem rearranges_id : Rearranges id where
  null := rfl
  text _ := rfl
  boolean _ := rfl
  list _ := by simp
  record fields _ := by simpa using shows_record fields

/-- Does a key come before another, or is it the same, where entries are sorted by key? -/
def keyLe (a b : Value × Value) : Bool := Text.pointsLe (Json.keyPoints a.1) (Json.keyPoints b.1)

mutual

/-- The data with the keys of all mappings sorted, and what has no parts changed by `leaf`. -/
def arranged (leaf : Value → Value) : Value → Value
  | .list vs => .list (arrangedAll leaf vs)
  | .map es => .map ((arrangedEntries leaf es).mergeSort keyLe)
  | v => leaf v

def arrangedAll (leaf : Value → Value) : List Value → List Value
  | [] => []
  | v :: vs => arranged leaf v :: arrangedAll leaf vs

def arrangedEntries (leaf : Value → Value) : List (Value × Value) → List (Value × Value)
  | [] => []
  | (k, v) :: es => (k, arranged leaf v) :: arrangedEntries leaf es

end

/-- The data with the keys of all mappings sorted, as it stands in a text that is written so. -/
def sorted (v : Value) : Value := arranged id v

section Arranged

variable {leaf : Value → Value}

theorem arrangedAll_eq (vs : List Value) : arrangedAll leaf vs = vs.map (arranged leaf) := by
  induction vs with
  | nil => rfl
  | cons v vs ih => rw [arrangedAll, ih, List.map_cons]

theorem arrangedEntries_eq (es : List (Value × Value)) :
    arrangedEntries leaf es = es.map fun (k, v) => (k, arranged leaf v) := by
  induction es with
  | nil => rfl
  | cons e es ih => rw [arrangedEntries, ih, List.map_cons]

theorem nodup_text_keys (fields : List (String × Value)) (h : (fields.map (·.1)).Nodup) :
    ((fields.map fun (k, v) => (Value.text k, v)).map (·.1)).Nodup := by
  have htext : Function.Injective Value.text := fun _ _ he => by simpa using he
  simpa [Function.comp_def] using h.map htext

theorem rearranges_arranged (hnull : leaf .null = .null) (htext : ∀ s, leaf (.text s) = .text s)
    (hboolean : ∀ b, leaf (.boolean b) = .boolean b) : Rearranges (arranged leaf) where
  null := hnull
  text := htext
  boolean := hboolean
  list vs := by rw [arranged, arrangedAll_eq]
  record fields h := by
    have hentries : arrangedEntries leaf (fields.map fun (k, v) => (.text k, v)) =
        (fields.map fun (k, v) => (k, arranged leaf v)).map fun (k, v) => (.text k, v) := by
      simp [arrangedEntries_eq]
    have hkeys := nodup_text_keys (fields.map fun (k, v) => (k, arranged leaf v))
      (by simpa [Function.comp_def] using h)
    refine ⟨_, rfl, fun key => ?_⟩
    rw [hentries, ← lookup?_perm (List.mergeSort_perm _ _).symm hkeys, lookup?_fields]

end Arranged

/-! Sorting keys. -/

/-- A property that goes from the parts of lists and mappings to the whole. -/
structure Closed (motive : Value → Prop) : Prop where
  scalar : ∀ v, v.sorted = v → motive v
  list : ∀ vs, (∀ v ∈ vs, motive v) → motive (.list vs)
  map : ∀ es, (∀ e ∈ es, motive e.2) → motive (.map es)

mutual

theorem Closed.holds (h : Closed motive) : ∀ v, motive v
  | .list vs => h.list vs (h.holds_items vs)
  | .map es => h.map es (h.holds_entries es)
  | .null | .boolean _ | .int _ | .float _ | .text _ | .torn _ | .bytes _ | .date _ | .moment _
  | .tuple _ | .set _ | .knot _ _ | .loop _ _ => h.scalar _ rfl

theorem Closed.holds_items (h : Closed motive) :
    ∀ vs : List Value, ∀ v ∈ vs, motive v
  | [] => by simp
  | v :: vs => List.forall_mem_cons.2 ⟨h.holds v, h.holds_items vs⟩

theorem Closed.holds_entries (h : Closed motive) :
    ∀ es : List (Value × Value), ∀ e ∈ es, motive e.2
  | [] => by simp
  | (_, v) :: es => List.forall_mem_cons.2 ⟨h.holds v, h.holds_entries es⟩

end

/-- Induction over the lists and mappings in data. -/
theorem induct (scalar : ∀ v, v.sorted = v → motive v)
    (list : ∀ vs, (∀ v ∈ vs, motive v) → motive (.list vs))
    (map : ∀ es, (∀ e ∈ es, motive e.2) → motive (.map es)) (v : Value) : motive v :=
  Closed.holds ⟨scalar, list, map⟩ v

end Acceptance.Value

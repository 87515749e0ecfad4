import Acceptance.Tree.OsError
/-!
File trees: directories and files by their location, and what file operations do to them.
-/
namespace Acceptance

/-- The names that lead from the root of the tree to a place in it. -/
abbrev Location := List String

inductive Entry
  | dir
  | file (bytes : ByteArray)

instance : DecidableEq Entry
  | .dir, .dir => isTrue rfl
  | .dir, .file _ => isFalse Entry.noConfusion
  | .file _, .dir => isFalse Entry.noConfusion
  | .file a, .file b =>
    decidable_of_iff (a.data = b.data)
      ⟨fun h => congrArg Entry.file (ByteArray.ext h),
        fun h => congrArg ByteArray.data (Entry.file.inj h)⟩

inductive EntryKind
  | dir
  | file
  deriving DecidableEq, Repr

def Entry.kind : Entry → EntryKind
  | .dir => .dir
  | .file _ => .file

/-- All entries but the root, which is always a directory. -/
structure Tree where
  entries : List (Location × Entry)

namespace Tree

def empty : Tree := ⟨[]⟩

def get? (t : Tree) (l : Location) : Option Entry :=
  if l = [] then some .dir else (t.entries.find? (·.1 = l)).map (·.2)

def erase (t : Tree) (l : Location) : Tree := ⟨t.entries.filter (·.1 ≠ l)⟩

def put (t : Tree) (l : Location) (e : Entry) : Tree := ⟨(l, e) :: (t.erase l).entries⟩

/-- The entries below a location, by the names that lead to them from there. -/
def below (t : Tree) (l : Location) : List (Location × Entry) :=
  t.entries.filterMap fun (m, e) =>
    if l.isPrefixOf m ∧ l ≠ m then some (m.drop l.length, e) else none

/-- A location with all that is below it taken out. -/
def prune (t : Tree) (l : Location) : Tree := ⟨t.entries.filter fun (m, _) => !l.isPrefixOf m⟩

theorem get?_root (t : Tree) : t.get? [] = some .dir := rfl

@[simp] theorem get?_put_self {l : Location} (h : l ≠ []) (t : Tree) (e : Entry) :
    (t.put l e).get? l = some e := by
  simp [get?, put, h]

theorem get?_erase_of_ne {l m : Location} (h : m ≠ l) (t : Tree) :
    (t.erase l).get? m = t.get? m := by
  simp only [get?, erase, List.find?_filter]
  congr 2
  apply congrArg (List.find? · t.entries)
  funext x
  by_cases hx : x.1 = m
  · simp [hx, h]
  · simp [hx]

@[simp] theorem get?_put_of_ne {l m : Location} (h : m ≠ l) (t : Tree) (e : Entry) :
    (t.put l e).get? m = t.get? m := by
  rw [← get?_erase_of_ne h t]
  simp [get?, put, Ne.symm h]

theorem get?_erase_self {l : Location} (h : l ≠ []) (t : Tree) : (t.erase l).get? l = none := by
  simp [get?, erase, h, List.find?_filter]

def maxNameSize : Nat := 255

def maxPathSize : Nat := 4095

/-- Follows names from a location. All but the last have to lead to directories. -/
def walk (t : Tree) : Location → List String → Except OsCause Location
  | l, [] => .ok l
  | l, name :: rest =>
    match t.get? l with
    | none => .error .notFound
    | some (.file _) => .error .notADirectory
    | some .dir =>
      if name = ".." then t.walk l.dropLast rest
      else if name.utf8ByteSize > maxNameSize then .error .nameTooLong
      else t.walk (l ++ [name]) rest

def locate (t : Tree) (p : Path) : Except OsCause Location :=
  if p.text.utf8ByteSize > maxPathSize then .error .nameTooLong else t.walk [] p.names

def entry (t : Tree) (p : Path) : Except OsCause (Location × Entry) := do
  let l ← t.locate p
  match t.get? l with
  | some e => .ok (l, e)
  | none => .error .notFound

/-- A path that leads nowhere has no entry; it is an error only if it cannot be asked for. -/
def stat (t : Tree) (p : Path) : Except OsCause (Option EntryKind) :=
  match t.entry p with
  | .ok (_, e) => .ok (some e.kind)
  | .error .nameTooLong => .error .nameTooLong
  | .error _ => .ok none

def read (t : Tree) (p : Path) : Except OsCause ByteArray := do
  match ← t.entry p with
  | (_, .file bytes) => .ok bytes
  | (_, .dir) => .error .isADirectory

def write (t : Tree) (p : Path) (bytes : ByteArray) : Except OsCause Tree := do
  let l ← t.locate p
  match t.get? l with
  | some .dir => .error .isADirectory
  | _ => .ok (t.put l (.file bytes))

def makeDir (t : Tree) (p : Path) : Except OsCause Tree := do
  let l ← t.locate p
  match t.get? l with
  | some _ => .error .exists
  | none => .ok (t.put l .dir)

def remove (t : Tree) (p : Path) : Except OsCause Tree := do
  match ← t.entry p with
  | (l, .file _) => .ok (t.erase l)
  | (_, .dir) => .error .isADirectory

/-- Gives a file another place, where it takes the place of a file that is there. -/
def move (t : Tree) (p q : Path) : Except OsCause Tree := do
  match ← t.entry p with
  | (_, .dir) => .error .isADirectory
  | (l, .file bytes) =>
    let m ← t.locate q
    match t.get? m with
    | some .dir => .error (if q.name = ".." then .busy else .isADirectory)
    | _ => .ok (if l = m then t else (t.erase l).put m (.file bytes))

def listBelow (t : Tree) (p : Path) : List (Location × EntryKind) :=
  match t.entry p with
  | .ok (l, .dir) => (t.below l).map fun (m, e) => (m, e.kind)
  | _ => []

end Tree
end Acceptance

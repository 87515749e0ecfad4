import Acceptance.Proofs.EmittedLines
/-!
Names of literals. A literal is named for a word near it, and from the second literal on that is named
for a word, the number of the use is added. A word of the statement can itself look like that, and then
two literals have one name.
-/
namespace Acceptance.Spec

variable {a b c : String} {bs : List String} {i j k l : Nat}

/-! Words and numbers. -/

/-- The words that literals are named for, before any number is added. -/
def basesFrom (before : List Item) : List Item → List String
  | [] => []
  | i :: is =>
    if i.literal?.isSome then nameAt before is :: basesFrom (i :: before) is
    else basesFrom (i :: before) is

def bases (statement : String) : List String := basesFrom [] (items .free statement.toList)

/-- How often a name has been used, up to a position and with it. -/
def useAt (bs : List String) (i : Nat) (b : String) : Nat := (bs.take (i + 1)).count b

theorem useAt_zero : useAt (b :: bs) 0 b = 1 := by
  simp [useAt]

theorem useAt_succ : useAt (a :: bs) (i + 1) b = useAt bs i b + if a == b then 1 else 0 := by
  rw [useAt, List.take_succ_cons, List.count_cons]
  rfl

theorem useAt_le : useAt bs i b ≤ bs.count b := (List.take_sublist ..).count_le b

theorem one_le_useAt (h : bs[i]? = some b) : 1 ≤ useAt bs i b := by
  refine List.one_le_count_iff.2 (List.mem_of_getElem? (i := i) ?_)
  rw [List.getElem?_take_of_lt (Nat.lt_succ_self i), h]

/-- The number grows from use to use. -/
theorem useAt_lt (hij : i < j) (hj : bs[j]? = some b) : useAt bs i b < useAt bs j b := by
  have hbefore : useAt bs i b ≤ (bs.take j).count b :=
    (List.take_prefix_take_left hij).sublist.count_le b
  rw [useAt, useAt, List.take_add_one (i := j), hj, List.count_append, Option.toList_some,
    List.count_singleton_self]
  exact Nat.lt_succ_of_le hbefore

theorem exists_useAt (hpos : 1 ≤ k) (hk : k ≤ bs.count b) :
    ∃ i, bs[i]? = some b ∧ useAt bs i b = k := by
  induction bs generalizing k with
  | nil =>
    rw [List.count_nil] at hk
    omega
  | cons a bs ih =>
    by_cases hab : a = b
    · subst hab
      rw [List.count_cons_self] at hk
      rcases Nat.eq_or_lt_of_le hpos with rfl | hlater
      · exact ⟨0, rfl, useAt_zero⟩
      · obtain ⟨i, hi, huse⟩ := ih (k := k - 1) (by omega) (by omega)
        refine ⟨i + 1, hi, ?_⟩
        rw [useAt_succ, huse, if_pos BEq.rfl]
        omega
    · rw [List.count_cons_of_ne hab] at hk
      obtain ⟨i, hi, huse⟩ := ih hpos hk
      refine ⟨i + 1, hi, ?_⟩
      rw [useAt_succ, huse, if_neg (by simpa using hab), Nat.add_zero]

/-! Names. -/

theorem names_nameItems {before is : List Item} {given : List String} {ps : List Parameter}
    (h : nameItems before given is = .ok ps) : ps.map (·.name) =
      (basesFrom before is).mapIdx fun i b =>
        numbered b (given.count b + useAt (basesFrom before is) i b) := by
  induction is generalizing before given ps with
  | nil =>
    cases h
    rfl
  | cons i is ih =>
    unfold nameItems at h
    cases hi : i.literal? with
    | none =>
      rw [hi] at h
      simpa [basesFrom, hi] using ih h
    | some r =>
      rw [hi] at h
      obtain ⟨literal, -, h⟩ := bind_eq_ok.1 h
      obtain ⟨rest, hrest, h⟩ := bind_eq_ok.1 h
      cases h
      have hbases : basesFrom before (i :: is) = nameAt before is :: basesFrom (i :: before) is := by
        simp [basesFrom, hi]
      rw [hbases, List.mapIdx_cons, List.map_cons, useAt_zero, ih hrest]
      refine congrArg (_ :: ·) (List.mapIdx_eq_mapIdx_iff.2 fun n hn => ?_)
      rw [useAt_succ, List.count_cons]
      exact congrArg _ (by omega)

theorem numbered_of_two_le (hk : 2 ≤ k) : numbered b k = s!"{b}_{k}" := if_pos hk

theorem numbered_ne (hk : 2 ≤ k) : numbered b k ≠ b :=
  numbered_of_two_le hk ▸ Text.suffixed_ne b k

/-- Numbered names are apart, but a word can be the numbered name of another. -/
theorem numbered_cases (hk : 1 ≤ k) (hl : 1 ≤ l) (h : numbered b k = numbered c l) :
    (b = c ∧ k = l) ∨ (2 ≤ l ∧ numbered c l = b) ∨ (2 ≤ k ∧ numbered b k = c) := by
  by_cases hk₂ : 2 ≤ k
  · by_cases hl₂ : 2 ≤ l
    · rw [numbered_of_two_le hk₂, numbered_of_two_le hl₂] at h
      exact .inl (Text.suffixed_inj h)
    · obtain rfl : l = 1 := by omega
      exact .inr (.inr ⟨hk₂, h⟩)
  · obtain rfl : k = 1 := by omega
    by_cases hl₂ : 2 ≤ l
    · exact .inr (.inl ⟨hl₂, h.symm⟩)
    · obtain rfl : l = 1 := by omega
      exact .inl ⟨h, rfl⟩

theorem nodup_mapIdx_numbered : (bs.mapIdx fun i b => numbered b (useAt bs i b)).Nodup ↔
    ∀ b k, 2 ≤ k → k ≤ bs.count b → numbered b k ∉ bs := by
  have hname {i : Nat} {b : String} (h : bs[i]? = some b) :
      (bs.mapIdx fun i b => numbered b (useAt bs i b))[i]? = some (numbered b (useAt bs i b)) := by
    rw [List.getElem?_mapIdx, h]
    rfl
  constructor
  · -- the first literal that is named for such a word has the name of an earlier one
    intro hnodup b k hk hcount hmem
    obtain ⟨i, hi, huse⟩ := exists_useAt (Nat.le_of_succ_le hk) hcount
    obtain ⟨j, hj, hone⟩ := exists_useAt (Nat.le_refl 1) (List.one_le_count_iff.2 hmem)
    have hsame := hname hi
    rw [huse, show numbered b k = numbered (numbered b k) 1 from rfl, ← hone, ← hname hj] at hsame
    have hlength := (List.getElem?_eq_some_iff.1 (hname hi)).1
    obtain rfl := (List.getElem?_inj hlength hnodup).1 hsame
    exact numbered_ne hk (Option.some.inj (hj.symm.trans hi))
  · intro hfree
    rw [List.nodup_iff_getElem?_ne_getElem?]
    intro i j hij hlength hsame
    rw [List.length_mapIdx] at hlength
    have hi := List.getElem?_eq_getElem (hij.trans hlength)
    have hj := List.getElem?_eq_getElem hlength
    rw [hname hi, hname hj, Option.some.injEq] at hsame
    rcases numbered_cases (one_le_useAt hi) (one_le_useAt hj) hsame with ⟨hbase, huse⟩ | ⟨h₂, hb⟩ | ⟨h₂, hc⟩
    · rw [hbase] at huse
      exact absurd huse (useAt_lt hij hj).ne
    · exact hfree _ _ h₂ useAt_le (hb ▸ List.getElem_mem _)
    · exact hfree _ _ h₂ useAt_le (hc ▸ List.getElem_mem _)

/-- Each literal has the word that it is named for, with the number of the use from the second on. The
names are distinct just if no word that a literal is named for is such a name of another word. -/
theorem names_distinct_iff (statement : String) {ps : List Parameter}
    (h : extract statement = .ok ps) :
    ps.map (·.name) = (bases statement).mapIdx
      (fun i b => numbered b (useAt (bases statement) i b)) ∧
    ((ps.map (·.name)).Nodup ↔ ∀ b k, 2 ≤ k → k ≤ (bases statement).count b →
      numbered b k ∉ bases statement) := by
  have hnames := names_nameItems h
  simp only [List.count_nil, Nat.zero_add] at hnames
  refine ⟨hnames, ?_⟩
  rw [hnames]
  exact nodup_mapIdx_numbered

/-- Words that are used again are told apart. -/
theorem names_distinct_iff_again : ∃ ps, extract "add 1 2 to total 3 4" = .ok ps ∧
    ps.map (·.name) = ["add", "add_2", "total", "total_2"] := by
  have h : extract "add 1 2 to total 3 4" = .ok [⟨"add", .int 1⟩, ⟨"add_2", .int 2⟩,
    ⟨"total", .int 3⟩, ⟨"total_2", .int 4⟩] := eq_ok_of_toOption (by decide +kernel)
  exact ⟨_, h, (names_distinct_iff _ h).1.trans (by decide +kernel)⟩

/-- The second number has the name of the third, whose word looks like a name with a number. -/
theorem name_given_twice : extract "x 1 2 x_2 3" =
    .ok [⟨"x", .int 1⟩, ⟨"x_2", .int 2⟩, ⟨"x_2", .int 3⟩] :=
  eq_ok_of_toOption (by decide +kernel)

end Acceptance.Spec

import Acceptance.Proofs.ShortNumbers
import Acceptance.Proofs.SpacedLiterals
/-!
Segments between quotes. Cut at its quotes, a statement has segments outside and inside them in turn.
The literals of the statement are those of each segment outside, taken alone, and each segment inside
as it is.
-/
namespace Acceptance

namespace Text

variable {sep : Char} {s cs : List Char}

theorem splitAt_of_not_mem (h : sep ∉ cs) : splitAt sep cs = [cs] := by
  induction cs with
  | nil => rfl
  | cons c cs ih =>
    obtain ⟨hc, hcs⟩ := not_or.1 (mt List.mem_cons.2 h)
    rw [splitAt, if_neg (Ne.symm hc), ih hcs]

theorem splitAt_append (h : sep ∉ s) (rest : List Char) :
    splitAt sep (s ++ sep :: rest) = s :: splitAt sep rest := by
  induction s with
  | nil => exact if_pos rfl
  | cons c s ih =>
    obtain ⟨hc, hs⟩ := not_or.1 (mt List.mem_cons.2 h)
    rw [List.cons_append, splitAt, if_neg (Ne.symm hc), ih hs]

/-- A text has no quote, or one alone, or two that are a pair, with more text behind them. -/
@[elab_as_elim]
theorem quotes_induction {motive : List Char → Prop} (bare : ∀ s, '"' ∉ s → motive s)
    (lone : ∀ s u, '"' ∉ s → '"' ∉ u → motive (s ++ '"' :: u))
    (pair : ∀ s q rest, '"' ∉ s → '"' ∉ q → motive rest → motive (s ++ '"' :: (q ++ '"' :: rest)))
    (cs : List Char) : motive cs := by
  induction h : cs.length using Nat.strong_induction_on generalizing cs with
  | h n ih =>
    subst h
    by_cases hcs : '"' ∈ cs
    · obtain ⟨s, u, rfl, hs⟩ := List.eq_append_cons_of_mem hcs
      by_cases hu : '"' ∈ u
      · obtain ⟨q, rest, rfl, hq⟩ := List.eq_append_cons_of_mem hu
        refine pair s q rest hs hq (ih _ ?_ rest rfl)
        simp only [List.length_append, List.length_cons]
        omega
      · exact lone s u hs hu
    · exact bare cs hcs

theorem keepsFront_append_quote (rest : List Char) : KeepsFront (· ++ '"' :: rest) := by
  intro cs
  cases cs with
  | nil => exact .inr ⟨by simp, by simp [isSolid]⟩
  | cons c cs => exact .inl ⟨c, cs, rfl, rfl⟩

end Text

namespace Spec

open Text

variable {edge : Edge} {s q : List Char}

/-! Items. -/

/-- No item goes on past a quote. -/
theorem items_append_quote (hs : '"' ∉ s) (rest : List Char) :
    ∃ edge', items edge (s ++ '"' :: rest) = items edge s ++ items edge' ('"' :: rest) := by
  have hcons (edge : Edge) {c : Char} {cs : List Char} (h : '"' ∉ c :: cs) :=
    takeItem?_of_keepsFront (keepsFront_append_quote rest) edge (List.ne_of_not_mem_cons h).symm
      (rfl : c :: cs ++ '"' :: rest = c :: (cs ++ '"' :: rest))
  fun_induction items edge s with
  | case1 edge s i edge' later htake ih =>
    cases s with
    | nil => cases htake
    | cons c cs =>
      have hlater : '"' ∉ later := fun h => hs ((of_takeItem? htake).1.subset h)
      obtain ⟨last, hlast⟩ := ih hlater
      have htaken := hcons edge hs
      rw [htake] at htaken
      exact ⟨last, by rw [items_of_some htaken, hlast, List.cons_append]⟩
  | case2 edge => exact ⟨edge, rfl⟩
  | case3 edge c cs htake ih =>
    obtain ⟨last, hlast⟩ := ih (List.not_mem_of_not_mem_cons hs)
    have htaken := hcons edge hs
    rw [htake] at htaken
    rw [List.cons_append] at htaken ⊢
    exact ⟨last, by rw [items_of_none htaken, hlast]⟩

theorem items_quoted (hq : '"' ∉ q) (rest : List Char) :
    items edge ('"' :: (q ++ '"' :: rest)) = .quoted q :: items .free rest := by
  refine items_of_some ?_
  rw [takeItem?, if_pos rfl, quotedItem?_append hq]
  rfl

theorem items_segments (hs : '"' ∉ s) (hq : '"' ∉ q) (rest : List Char) :
    items edge (s ++ '"' :: (q ++ '"' :: rest)) =
      items edge s ++ .quoted q :: items .free rest := by
  obtain ⟨edge', h⟩ := items_append_quote hs (q ++ '"' :: rest)
  rw [h, items_quoted hq]

theorem quote_mem_of_takeItem? {edge' : Edge} {rest : List Char}
    (h : takeItem? edge s = some (.quoted q, edge', rest)) : '"' ∈ s := by
  cases s with
  | nil => cases h
  | cons c cs =>
    by_contra hno
    rw [takeItem?, if_neg (List.ne_of_not_mem_cons hno).symm] at h
    split at h
    · obtain ⟨hword, -⟩ := Prod.mk.inj (Option.some.inj h)
      unfold wordItem at hword
      split_ifs at hword
    · obtain ⟨⟨i, later⟩, hi, heq⟩ := Option.map_eq_some_iff.1 h
      cases heq
      unfold numberItem? at hi
      split at hi
      · split_ifs at hi
        cases hi
      · cases hi

theorem quoted_not_mem_items (hs : '"' ∉ s) : .quoted q ∉ items edge s := by
  fun_induction items edge s with
  | case1 edge s i edge' later htake ih =>
    rw [List.mem_cons, not_or]
    refine ⟨?_, ih fun h => hs ((of_takeItem? htake).1.subset h)⟩
    rintro rfl
    exact hs (quote_mem_of_takeItem? htake)
  | case2 => exact List.not_mem_nil
  | case3 edge c cs htake ih => exact ih (List.not_mem_of_not_mem_cons hs)

/-! Literals. -/

/-- The literals that items stand for. -/
def literalsOf (is : List Item) : Except Misfit (List Literal) := (is.filterMap Item.literal?).mapM id

/-- Literals with their types. -/
def typed (ls : List Literal) : List (LiteralType × Literal) := ls.map fun l => (l.type, l)

/-- The literals of a segment outside quotes, which is taken for a statement. -/
def bareLiterals (s : List Char) : Except Misfit (List (LiteralType × Literal)) :=
  (extract (String.ofList s)).map fun ps => (typed (ps.map (·.literal))).filter (·.1 ≠ .text)

/-- The literals of segments outside and inside quotes in turn. -/
def segmentLiterals : List (List Char) → Except Misfit (List (LiteralType × Literal))
  | [] => return []
  | [s] => bareLiterals s
  | s :: q :: rest =>
    return (← bareLiterals s) ++ (.text, .text (String.ofList q)) :: (← segmentLiterals rest)

/-- The segments inside quotes. -/
def insides : List (List Char) → List (List Char)
  | _ :: q :: rest => q :: insides rest
  | _ => []

theorem literals_nameItems (before : List Item) (given : List String) (is : List Item) :
    (nameItems before given is).map (List.map (·.literal)) = literalsOf is := by
  induction is generalizing before given with
  | nil => rfl
  | cons i is ih =>
    unfold nameItems literalsOf
    cases hi : i.literal? with
    | none =>
      rw [List.filterMap_cons_none hi]
      exact ih _ _
    | some l =>
      have hrest := ih (i :: before) (nameAt before is :: given)
      rw [literalsOf] at hrest
      rw [List.filterMap_cons_some hi, List.mapM_cons, ← hrest]
      cases l with
      | error m => rfl
      | ok l =>
        dsimp only
        cases nameItems (i :: before) (nameAt before is :: given) is <;> rfl

theorem literals_extract (t : String) :
    (extract t).map (fun ps => typed (ps.map (·.literal))) =
      (literalsOf (items .free t.toList)).map typed := by
  rw [← literals_nameItems [] []]
  unfold extract
  cases nameItems [] [] (items .free t.toList) <;> rfl

theorem literalsOf_append (as bs : List Item) :
    literalsOf (as ++ bs) = do return (← literalsOf as) ++ (← literalsOf bs) := by
  rw [literalsOf, List.filterMap_append, List.mapM_append]
  rfl

theorem type_ne_text {i : Item} {l : Literal} (hi : i.literal? = some (.ok l))
    (hq : ∀ q, i ≠ .quoted q) : l.type ≠ .text := by
  cases i with
  | word => cases hi
  | quoted q => exact absurd rfl (hq q)
  | truth b =>
    cases hi
    exact nofun
  | number n =>
    have hn : n.literal = .ok l := Option.some.inj hi
    unfold Numeral.literal at hn
    split at hn
    · cases hn
      exact nofun
    · split_ifs at hn
      cases hn
      exact nofun

/-- Nothing but numbers and truth values is found outside quotes. -/
theorem bareLiterals_eq (hs : '"' ∉ s) : bareLiterals s = (literalsOf (items .free s)).map typed := by
  have hextract := literals_extract (String.ofList s)
  rw [String.toList_ofList] at hextract
  rw [bareLiterals, ← hextract]
  cases hps : extract (String.ofList s) with
  | error m => rfl
  | ok ps =>
    rw [hps] at hextract
    refine congrArg Except.ok (List.filter_eq_self.2 ?_)
    obtain ⟨ls, hls, heq⟩ := map_eq_ok.1 hextract.symm
    dsimp only at heq
    rw [← heq]
    intro x hx
    obtain ⟨l, hl, rfl⟩ := List.mem_map.1 hx
    obtain ⟨r, hr, hrl⟩ := exists_of_mem_mapM hls l hl
    obtain ⟨i, hi, hir⟩ := List.mem_filterMap.1 hr
    have htype := type_ne_text (hir.trans (congrArg some hrl)) fun q hq =>
      quoted_not_mem_items hs (hq ▸ hi)
    simpa using htype

theorem literals_segments (cs : List Char) (h : cs.count '"' % 2 = 0) :
    (literalsOf (items .free cs)).map typed = segmentLiterals (splitAt '"' cs) := by
  induction cs using quotes_induction with
  | bare s hs => rw [splitAt_of_not_mem hs, segmentLiterals, bareLiterals_eq hs]
  | lone s u hs hu =>
    rw [List.count_append, List.count_cons_self, List.count_eq_zero.2 hs,
      List.count_eq_zero.2 hu] at h
    cases h
  | pair s q rest hs hq ih =>
    have hrest : rest.count '"' % 2 = 0 := by
      rw [List.count_append, List.count_cons_self, List.count_append, List.count_cons_self,
        List.count_eq_zero.2 hs, List.count_eq_zero.2 hq] at h
      omega
    rw [splitAt_append hs, splitAt_append hq, segmentLiterals, ← ih hrest, bareLiterals_eq hs,
      items_segments hs hq, literalsOf_append]
    have hquoted : literalsOf (.quoted q :: items .free rest) =
        (literalsOf (items .free rest)).map (.text (String.ofList q) :: ·) := by
      rw [literalsOf, List.filterMap_cons_some (f := Item.literal?) (b := .ok (.text (String.ofList q))) rfl, List.mapM_cons]
      rfl
    rw [hquoted]
    cases literalsOf (items .free s) with
    | error m => rfl
    | ok as =>
      cases literalsOf (items .free rest) with
      | error m => rfl
      | ok bs => exact congrArg Except.ok (List.map_append ..)

theorem texts_segmentLiterals {segments : List (List Char)} {xs : List (LiteralType × Literal)}
    (h : segmentLiterals segments = .ok xs) :
    xs.filter (·.1 = .text) = typed ((insides segments).map fun q => .text (String.ofList q)) := by
  have hbare {s : List Char} {xs : List (LiteralType × Literal)} (h : bareLiterals s = .ok xs) :
      xs.filter (·.1 = .text) = [] := by
    obtain ⟨ps, -, rfl⟩ := map_eq_ok.1 h
    simp [List.filter_filter]
  fun_induction segmentLiterals segments generalizing xs with
  | case1 =>
    cases h
    rfl
  | case2 s => exact hbare h
  | case3 s q rest ih =>
    obtain ⟨as, has, h⟩ := bind_eq_ok.1 h
    obtain ⟨bs, hbs, h⟩ := bind_eq_ok.1 h
    cases h
    rw [List.filter_append, hbare has, List.filter_cons_of_pos rfl, ih hbs]
    rfl

/-- The literals of a statement are those of its segments outside quotes, each taken for a statement
of its own, and between them the segments inside quotes, which are just the texts among the literals.
Statements that are read from specs have their quotes in pairs. -/
theorem quoted_text_verbatim (t : String) (h : t.toList.count '"' % 2 = 0) :
    (extract t).map (fun ps => typed (ps.map (·.literal))) =
      segmentLiterals (splitAt '"' t.toList) ∧
    (∀ ps, extract t = .ok ps → (typed (ps.map (·.literal))).filter (·.1 = .text) =
      typed ((insides (splitAt '"' t.toList)).map fun q => .text (String.ofList q))) ∧
    ∀ text ts, tokens text = .ok ts → ∀ token ∈ ts, ∀ lead s, token.line = .step lead s →
      s.toList.count '"' % 2 = 0 := by
  have hsegments := (literals_extract t).trans (literals_segments t.toList h)
  refine ⟨hsegments, fun ps hps => ?_, fun text ts hts token htoken lead s hline => ?_⟩
  · rw [hps] at hsegments
    exact texts_segmentLiterals hsegments.symm
  · have hlegible := legible_of_tokensFrom oneLine_of_mem_lines hts token htoken
    rw [hline] at hlegible
    exact hlegible.quotes

/-- Numbers and truth values count outside quotes only. -/
theorem quoted_text_verbatim_mixed :
    (extract "say \"5 is true\" 7 times, false").map (fun ps => typed (ps.map (·.literal))) =
      .ok [(.text, .text "5 is true"), (.number, .int 7), (.boolean, .boolean false)] :=
  (quoted_text_verbatim "say \"5 is true\" 7 times, false" (by decide)).1.trans
    (eq_ok_of_toOption (by decide +kernel))

end Spec
end Acceptance

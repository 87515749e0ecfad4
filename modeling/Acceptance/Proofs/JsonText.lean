import Acceptance.Proofs.JsonStrings
import Acceptance.Proofs.NumberText
import Acceptance.Proofs.Outcomes
import Acceptance.Proofs.Rearranged
/-!
Data written as JSON text in lines, with sorted keys, is read back: the keys of mappings are sorted
then, and numbers and texts are what their own texts stand for.
-/
namespace Acceptance.Json

variable {c : Char} {cs : List Char} {v : Value} {fuel position : Nat} {vs : List Value}
  {fields : List (String × Value)}

/-- How data without parts comes back, where binary64 numbers come back by `number`. -/
def leafBack (number : Binary64 → Binary64) : Value → Value
  | .float x => .float (number x)
  | .torn ps => .ofPoints (rejoin ps)
  | v => v

/-- Data without parts that JSON text can hold. -/
inductive IsScalar : Value → Prop
  | null : IsScalar .null
  | boolean (b : Bool) : IsScalar (.boolean b)
  | int (n : Int) : IsScalar (.int n)
  | float (x : Binary64) : IsScalar (.float x)
  | text (s : String) : IsScalar (.text s)
  | torn (ps : List Nat) : IsScalar (.torn ps)

/-- Data made of scalars with a property, with collections nested at most so deep and texts as keys
of its mappings. -/
inductive Plain (P : Value → Prop) : Nat → Value → Prop
  | scalar {depth : Nat} {v : Value} (h : P v) : Plain P depth v
  | list {depth : Nat} {vs : List Value} (h : ∀ v ∈ vs, Plain P depth v) :
    Plain P (depth + 1) (.list vs)
  | record {depth : Nat} {fields : List (String × Value)} (hkeys : (fields.map (·.1)).Nodup)
    (h : ∀ field ∈ fields, Plain P depth field.2) : Plain P (depth + 1) (.record fields)

/-- Reading gives this and stops before the rest. Unless it is `sure` to, there may be a number
instead that is too long. -/
def Gives {α : Type} (sure : Prop) (r : Except Stop (α × Cursor)) (a : α) (rest : List Char) :
    Prop :=
  (∃ next, r = .ok (a, ⟨rest, next⟩)) ∨ ¬sure ∧ ∃ size, r = .error (.misfit (.integerTooLong size))

theorem Gives.map {α β : Type} {sure : Prop} {r : Except Stop (α × Cursor)} {a : α}
    {rest : List Char} (h : Gives sure r a rest) (f : α → β) :
    Gives sure (r.map fun p => (f p.1, p.2)) (f a) rest := by
  rcases h with ⟨next, rfl⟩ | ⟨hsure, size, rfl⟩
  · exact .inl ⟨next, rfl⟩
  · exact .inr ⟨hsure, size, rfl⟩

/-- Before a comma or a line break the text is read as the value, with fuel for each character. -/
structure ReadsAs (sure : Prop) (depth : Nat) (cs : List Char) (v : Value) : Prop where
  start : ∃ c more, cs = c :: more ∧ isSpace c = false ∧ c ≠ ']' ∧ c ≠ '\ufeff'
  read : ∀ fuel, cs.length ≤ fuel → ∀ rest, Ends rest → ∀ position,
    Gives sure (readValue fuel depth ⟨cs ++ rest, position⟩) v rest

variable {sure : Prop} {depth : Nat}

theorem ReadsAs.of_cons (hspace : isSpace c = false) (hclose : c ≠ ']' ∧ c ≠ '\ufeff')
    (h : ∀ fuel, cs.length ≤ fuel → ∀ rest, Ends rest → ∀ position,
      Gives sure (readValue (fuel + 1) depth ⟨c :: (cs ++ rest), position⟩) v rest) :
    ReadsAs sure depth (c :: cs) v := by
  refine ⟨⟨c, cs, rfl, hspace, hclose⟩, fun fuel hfuel rest hrest position => ?_⟩
  cases fuel with
  | zero => exact absurd hfuel (by simp)
  | succ fuel => exact h fuel (Nat.le_of_succ_le_succ hfuel) rest hrest position

theorem skipSpace_append (spaces rest : List Char) (hspaces : ∀ c ∈ spaces, isSpace c = true)
    (hrest : ∀ c ∈ rest.head?, isSpace c = false) (position : Nat) :
    skipSpace ⟨spaces ++ rest, position⟩ = ⟨rest, position + spaces.length⟩ := by
  simp [skipSpace, (Text.span_append hspaces hrest).1]

theorem readValue_scalar {r : Except Stop (Value × Cursor)} (hquote : c ≠ '"') (hlist : c ≠ '[') (hmap : c ≠ '\x7b')
    (h : (∃ p, readWord? ⟨c :: cs, position⟩ = some p ∧ r = .ok p) ∨
      (readWord? ⟨c :: cs, position⟩ = none ∧ readNumber? ⟨c :: cs, position⟩ = some r)) :
    readValue (fuel + 1) depth ⟨c :: cs, position⟩ = r := by
  unfold readValue
  split
  · next heq => exact absurd (List.cons.inj heq).1 hquote
  · next heq => exact absurd (List.cons.inj heq).1 hmap
  · next heq => exact absurd (List.cons.inj heq).1 hlist
  · next heq => exact absurd (List.cons.inj heq).1 hmap
  · next heq => exact absurd (List.cons.inj heq).1 hlist
  · rcases h with ⟨p, hword, rfl⟩ | ⟨hword, hnumber⟩
    · rw [hword]
    · rw [hword, hnumber]

theorem readWord?_word {word : List Char} (h : (word, v) ∈ words) (rest : List Char)
    (position : Nat) :
    readWord? ⟨word ++ rest, position⟩ = some (v, ⟨rest, position + word.length⟩) := by
  have hfind : (words.find? fun w => w.1.isPrefixOf (word ++ rest)) = some (word, v) := by
    simp only [words, List.mem_cons, List.not_mem_nil, or_false, Prod.mk.injEq] at h
    rcases h with ⟨rfl, rfl⟩ | ⟨rfl, rfl⟩ | ⟨rfl, rfl⟩ | ⟨rfl, rfl⟩ | ⟨rfl, rfl⟩ | ⟨rfl, rfl⟩ <;>
      rfl
  simp [readWord?, hfind]

theorem readsAs_word {word : List Char} (h : (word, v) ∈ words) :
    ReadsAs sure depth word v := by
  have hhead : ∃ c more, word = c :: more ∧ isSpace c = false ∧ (c ≠ ']' ∧ c ≠ '\ufeff') ∧
      c ≠ '"' ∧ c ≠ '[' ∧ c ≠ '\x7b' := by
    simp only [words, List.mem_cons, List.not_mem_nil, or_false, Prod.mk.injEq] at h
    rcases h with ⟨rfl, rfl⟩ | ⟨rfl, rfl⟩ | ⟨rfl, rfl⟩ | ⟨rfl, rfl⟩ | ⟨rfl, rfl⟩ | ⟨rfl, rfl⟩ <;>
      exact ⟨_, _, rfl, by decide⟩
  obtain ⟨c, more, rfl, hspace, hclose, hquote, hlist, hmap⟩ := hhead
  refine .of_cons hspace hclose fun fuel _ rest _ position => ?_
  exact .inl ⟨_, readValue_scalar hquote hlist hmap
    (.inl ⟨_, readWord?_word h rest position, rfl⟩)⟩

theorem readWord?_number (h : StartsNumber cs) (position : Nat) :
    readWord? ⟨cs, position⟩ = none := by
  have hfind : (words.find? fun w => w.1.isPrefixOf cs) = none := by
    obtain ⟨d, ds, hdigit, rfl | rfl⟩ := h <;>
    · have hd : d ≠ 'n' ∧ d ≠ 't' ∧ d ≠ 'f' ∧ d ≠ 'N' ∧ d ≠ 'I' ∧ d ≠ '-' := by
        refine ⟨?_, ?_, ?_, ?_, ?_, ?_⟩ <;> (rintro rfl; exact absurd hdigit (by decide))
      simp [words, hd, Ne.symm]
  simp [readWord?, hfind]

theorem readsAs_number (hstart : StartsNumber cs)
    (h : ∀ rest, Ends rest → ∀ position, ∃ r,
      readNumber? ⟨cs ++ rest, position⟩ = some r ∧ Gives sure r v rest) :
    ReadsAs sure depth cs v := by
  have hhead : ∃ c more, cs = c :: more ∧ (c = '-' ∨ isAsciiDigit c = true) := by
    obtain ⟨d, ds, hdigit, rfl | rfl⟩ := hstart
    · exact ⟨d, ds, rfl, .inr hdigit⟩
    · exact ⟨'-', d :: ds, rfl, .inl rfl⟩
  obtain ⟨c, more, rfl, hc⟩ := hhead
  have hother : isSpace c = false ∧ (c ≠ ']' ∧ c ≠ '\ufeff') ∧ c ≠ '"' ∧ c ≠ '[' ∧
      c ≠ '\x7b' := by
    rcases hc with rfl | hdigit
    · decide
    · refine ⟨?_, ⟨?_, ?_⟩, ?_, ?_, ?_⟩
      · by_contra hspace
        simp only [isSpace, Bool.not_eq_false, Bool.or_eq_true, beq_iff_eq] at hspace
        rcases hspace with ((rfl | rfl) | rfl) | rfl <;> exact absurd hdigit (by decide)
      all_goals rintro rfl; exact absurd hdigit (by decide)
  obtain ⟨hspace, hclose, hquote, hlist, hmap⟩ := hother
  refine .of_cons hspace hclose fun fuel _ rest hrest position => ?_
  obtain ⟨r, hread, hgives⟩ := h rest hrest position
  have hword : readWord? ⟨c :: more ++ rest, position⟩ = none := by
    obtain ⟨d, ds, hdigit, he⟩ := hstart
    refine readWord?_number ⟨d, ds ++ rest, hdigit, ?_⟩ position
    rcases he with he | he <;> simp [he]
  have hvalue : readValue (fuel + 1) depth ⟨c :: (more ++ rest), position⟩ = r :=
    readValue_scalar hquote hlist hmap (.inr ⟨hword, hread⟩)
  rwa [hvalue]

theorem readsAs_quotedPoints (ps : List Nat) (depth : Nat) :
    ReadsAs sure depth (quotedPoints ps).toList (.ofPoints (rejoin ps)) := by
  have htext : (quotedPoints ps).toList = '"' :: (ps.flatMap escapePoint ++ ['"']) := by
    simp [quotedPoints]
  rw [htext]
  refine .of_cons rfl (by decide) fun fuel _ rest _ position => ?_
  obtain ⟨next, hread⟩ := readString_points ps rest (position + 1)
  refine .inl ⟨next, ?_⟩
  rw [← hread, readValue]
  simp

/-! Collections. `text` is how a part is written, `back` what it is read as. -/

section Collections

variable {text : Value → List Char} {back : Value → Value}

/-- What stands in front of a line: the line break and the spaces of the level. -/
def newLine (level : Nat) : List Char := '\n' :: List.replicate (2 * level) ' '

theorem skipSpace_newLine (level : Nat) (hc : isSpace c = false) (rest : List Char)
    (position : Nat) : ∃ next, skipSpace ⟨newLine level ++ c :: rest, position⟩ = ⟨c :: rest, next⟩ := by
  have hspaces : ∀ d ∈ newLine level, isSpace d = true := by
    intro d hd
    rcases List.mem_cons.1 hd with rfl | hd
    · rfl
    · rw [List.eq_of_mem_replicate hd]
      rfl
  exact ⟨_, skipSpace_append (newLine level) (c :: rest) hspaces (by simpa using hc) position⟩

theorem skipSpace_of_not (hc : isSpace c = false) (rest : List Char) (position : Nat) :
    skipSpace ⟨c :: rest, position⟩ = ⟨c :: rest, position⟩ := by
  simp [skipSpace, hc]

theorem ends_newLine (level : Nat) (rest : List Char) : Ends (newLine level ++ rest) :=
  ⟨_, .inr rfl⟩

theorem intercalate_cons {α : Type} (sep p : List α) (ps : List (List α)) :
    sep.intercalate (p :: ps) = p ++ ps.flatMap (sep ++ ·) := by
  induction ps generalizing p with
  | nil => simp
  | cons q ps ih => simp [List.intercalate_cons_cons, ih]

theorem forall_mem_intercalate {P : Char → Prop} {sep : String} {parts : List String}
    (hsep : ∀ c ∈ sep.toList, P c) (hparts : ∀ p ∈ parts, ∀ c ∈ p.toList, P c) :
    ∀ c ∈ (String.intercalate sep parts).toList, P c := by
  rw [String.toList_intercalate]
  cases parts with
  | nil => exact List.forall_mem_nil _
  | cons p ps =>
    obtain ⟨hp, hps⟩ := List.forall_mem_cons.1 hparts
    rw [List.map_cons, intercalate_cons]
    refine List.forall_mem_append.2 ⟨hp, List.forall_mem_flatMap.2 (List.forall_mem_map.2 ?_)⟩
    exact fun q hq => List.forall_mem_append.2 ⟨hsep, hps q hq⟩

/-- What comes behind a part: lines with other parts, and the closing bracket. -/
def trail (inner outer : Nat) (parts : List (List Char)) (close : Char) (rest : List Char) :
    List Char :=
  parts.flatMap (',' :: newLine inner ++ ·) ++ (newLine outer ++ close :: rest)

variable (inner outer : Nat) (parts : List (List Char)) (close : Char) (rest : List Char)

theorem ends_trail : Ends (trail inner outer parts close rest) := by
  cases parts with
  | nil => exact ends_newLine outer (close :: rest)
  | cons p parts => exact ⟨_, .inl rfl⟩

theorem trail_cons (p : List Char) : trail inner outer (p :: parts) close rest =
      ',' :: (newLine inner ++ (p ++ trail inner outer parts close rest)) := by
  simp [trail]

theorem trail_append :
    trail inner outer parts close [] ++ rest = trail inner outer parts close rest := by
  simp [trail]

theorem length_trail_pos : 0 < (trail inner outer parts close rest).length := by
  obtain ⟨cs, h | h⟩ := ends_trail inner outer parts close rest <;> simp [h]

theorem readItems_trail (h : ∀ w ∈ v :: vs, ReadsAs sure depth (text w) (back w)) (fuel : Nat)
    (hfuel : (text v ++ trail inner outer (vs.map text) ']' []).length ≤ fuel)
    (acc : List Value) (position : Nat) :
    Gives sure
      (readItems fuel depth acc ⟨text v ++ trail inner outer (vs.map text) ']' rest, position⟩)
      (acc.reverse ++ (v :: vs).map back) rest := by
  rw [List.length_append] at hfuel
  induction fuel generalizing v vs acc position with
  | zero =>
    have hpos := length_trail_pos inner outer (vs.map text) ']' []
    omega
  | succ fuel ih =>
    have hpos := length_trail_pos inner outer (vs.map text) ']' []
    obtain ⟨mid, hread⟩ | ⟨hsure, size, hread⟩ := (h v List.mem_cons_self).read fuel (by omega) _
      (ends_trail inner outer (vs.map text) ']' rest) position
    case inr =>
      refine .inr ⟨hsure, size, ?_⟩
      rw [readItems, hread]
      rfl
    cases vs with
    | nil =>
      obtain ⟨next, hskip⟩ := skipSpace_newLine outer (c := ']') rfl rest mid
      refine .inl ⟨next + 1, ?_⟩
      rw [readItems, hread]
      simp [bind, Except.bind, trail, hskip, pure, Except.pure]
    | cons w ws =>
      rw [List.map_cons, trail_cons, List.length_cons, List.length_append, List.length_append] at hfuel
      obtain ⟨c, more, hw, hspace, -⟩ := (h w (by simp)).start
      obtain ⟨next, hskip⟩ := skipSpace_newLine inner hspace
        (more ++ trail inner outer (ws.map text) ']' rest) (mid + 1)
      have hlast := ih (fun u hu => h u (List.mem_cons_of_mem v hu)) (by omega) (back v :: acc) next
      rw [hw] at hlast
      rw [readItems, hread]
      simp only [bind, Except.bind, List.map_cons, trail_cons, skipSpace_of_not (c := ',') rfl]
      rw [hw, List.cons_append, hskip]
      simpa using hlast

/-! Entries. -/

/-- The entries of a mapping with text keys. -/
def entriesOf (fields : List (String × Value)) : List (Value × Value) :=
  fields.map fun (k, v) => (.text k, v)

theorem put_entriesOf {key : String} (h : key ∉ fields.map (·.1)) (v : Value) :
    Value.put (.text key) v (entriesOf fields) = entriesOf (fields ++ [(key, v)]) := by
  induction fields with
  | nil => rfl
  | cons field fields ih =>
    obtain ⟨hne, hkey⟩ : ¬key = field.1 ∧ key ∉ fields.map (·.1) := by simpa using h
    have hsame : Value.sameScalar (.text field.1) (.text key) = false := by
      simpa [Value.sameScalar, Value.numeric?] using Ne.symm hne
    specialize ih hkey
    simp only [entriesOf, List.map_cons, Value.put, hsame, List.cons_append] at ih ⊢
    rw [ih]
    rfl

/-- A line with an entry. -/
def entryText (text : Value → List Char) (field : String × Value) : List Char :=
  (quoted field.1).toList ++ (':' :: ' ' :: text field.2)

theorem readString_entryText (text : Value → List Char) (field : String × Value) (rest : List Char) (position : Nat) :
    ∃ cs next, entryText text field ++ rest = '"' :: cs ∧ readString ⟨cs, position⟩ =
      .ok (.text field.1, ⟨':' :: ' ' :: (text field.2 ++ rest), next⟩) := by
  obtain ⟨next, hread⟩ :=
    readString_points (Text.points field.1) (':' :: ' ' :: (text field.2 ++ rest)) position
  rw [ofPoints_rejoin_points] at hread
  refine ⟨_, next, ?_, hread⟩
  rw [entryText, ← quotedPoints_points]
  simp [quotedPoints]

theorem readEntries_trail (text : Value → List Char) {field : String × Value}
    (h : ∀ f ∈ field :: fields, ReadsAs sure depth (text f.2) (back f.2)) (fuel : Nat)
    (hfuel : (entryText text field ++
      trail inner outer (fields.map (entryText text)) '\x7d' []).length ≤ fuel)
    (acc : List (String × Value)) (hkeys : ((acc ++ field :: fields).map (·.1)).Nodup)
    (position : Nat) :
    Gives sure (readEntries fuel depth (entriesOf acc) ⟨entryText text field ++
        trail inner outer (fields.map (entryText text)) '\x7d' rest, position⟩)
      (entriesOf (acc ++ (field :: fields).map fun f => (f.1, back f.2))) rest := by
  rw [List.length_append] at hfuel
  induction fuel generalizing field fields acc position with
  | zero =>
    have hpos := length_trail_pos inner outer (fields.map (entryText text)) '\x7d' []
    omega
  | succ fuel ih =>
    have hpos := length_trail_pos inner outer (fields.map (entryText text)) '\x7d' []
    obtain ⟨cs, mid, hwhole, hkey⟩ := readString_entryText text field
      (trail inner outer (fields.map (entryText text)) '\x7d' rest) (position + 1)
    have hlength : (text field.2).length ≤ fuel := by
      rw [entryText, List.length_append, List.length_cons, List.length_cons] at hfuel
      omega
    obtain ⟨c, more, hstart, hspace, -⟩ := (h field List.mem_cons_self).start
    have hgap : skipSpace ⟨' ' :: (text field.2 ++
        trail inner outer (fields.map (entryText text)) '\x7d' rest), mid + 1⟩ =
        ⟨text field.2 ++ trail inner outer (fields.map (entryText text)) '\x7d' rest, mid + 1 + 1⟩ :=
      skipSpace_append [' '] _ (by simp [isSpace]) (by rw [hstart]; simpa using hspace) (mid + 1)
    obtain ⟨behind, hvalue⟩ | ⟨hsure, size, hvalue⟩ :=
      (h field List.mem_cons_self).read fuel hlength _
        (ends_trail inner outer (fields.map (entryText text)) '\x7d' rest) (mid + 1 + 1)
    case inr =>
      refine .inr ⟨hsure, size, ?_⟩
      rw [hwhole, readEntries]
      simp only [hkey, bind, Except.bind, skipSpace_of_not (c := ':') rfl, hgap, hvalue]
    have hput : Value.put (.text field.1) (back field.2) (entriesOf acc) =
        entriesOf (acc ++ [(field.1, back field.2)]) := by
      refine put_entriesOf (fun hmem => ?_) _
      rw [List.map_append, List.nodup_append] at hkeys
      exact hkeys.2.2 _ hmem _ (by simp) rfl
    rw [hwhole, readEntries]
    simp only [hkey, bind, Except.bind, skipSpace_of_not (c := ':') rfl, hgap, hvalue, hput]
    cases fields with
    | nil =>
      obtain ⟨next, hskip⟩ := skipSpace_newLine outer (c := '\x7d') rfl rest behind
      refine .inl ⟨next + 1, ?_⟩
      simp [trail, hskip, pure, Except.pure]
    | cons g gs =>
      rw [List.map_cons, trail_cons, List.length_cons, List.length_append, List.length_append] at hfuel
      obtain ⟨ds, -, hg, -⟩ := readString_entryText text g
        (trail inner outer (gs.map (entryText text)) '\x7d' rest) 0
      obtain ⟨next, hskip⟩ := skipSpace_newLine inner (c := '"') rfl ds (behind + 1)
      have hlast := ih (fun f hf => h f (List.mem_cons_of_mem field hf)) (by omega)
        (acc ++ [(field.1, back field.2)]) (by simpa using hkeys) next
      simp only [List.map_cons, trail_cons, skipSpace_of_not (c := ',') rfl]
      rw [hg] at hlast
      rw [hg, hskip]
      simpa using hlast

theorem toList_lead (level : Nat) : (sortedLayout.lead level).toList = newLine level := by
  simp [Layout.lead, sortedLayout, newLine]

theorem toList_enclose (level : Nat) (opening closing : String) (o c : Char)
    (ho : opening.toList = [o]) (hc : closing.toList = [c]) (p : String) (ps : List String) :
    (sortedLayout.enclose level opening closing (p :: ps)).toList =
      o :: (newLine (level + 1) ++
        (p.toList ++ trail (level + 1) level (ps.map String.toList) c [])) := by
  have hcomma : sortedLayout.comma.toList = [','] := rfl
  simp only [Layout.enclose, String.toList_append, String.toList_intercalate, toList_lead, hcomma,
    ho, hc, List.map_cons, intercalate_cons, trail, List.append_assoc, List.cons_append,
    List.nil_append]

end Collections

section Layout

variable {str : Value → String} {back : Value → Value}

theorem readValue_list {mid : Nat} {more : List Char}
    (hskip : skipSpace ⟨cs, position + 1⟩ = ⟨c :: more, mid⟩) (hc : c ≠ ']') :
    readValue (fuel + 1) (depth + 1) ⟨'[' :: cs, position⟩ =
      (readItems fuel depth [] ⟨c :: more, mid⟩).map fun p => (.list p.1, p.2) := by
  unfold readValue
  simp only [hskip]
  split
  · next heq => exact absurd (List.cons.inj heq).1 hc
  · rfl

theorem readsAs_list (level : Nat) (h : ∀ v ∈ vs, ReadsAs sure depth (str v).toList (back v)) :
    ReadsAs sure (depth + 1) (sortedLayout.enclose level "[" "]" (vs.map str)).toList
      (.list (vs.map back)) := by
  cases vs with
  | nil =>
    have htext : (sortedLayout.enclose level "[" "]" []).toList = ['[', ']'] := by
      simp [Layout.enclose]
    rw [List.map_nil, htext]
    refine .of_cons rfl (by decide) fun fuel _ rest _ position => .inl ⟨position + 2, ?_⟩
    unfold readValue
    simp only [List.singleton_append, skipSpace_of_not (c := ']') rfl]
    rfl
  | cons v vs =>
    have hparts : (vs.map str).map String.toList = vs.map fun w => (str w).toList := List.map_map
    rw [List.map_cons, toList_enclose level "[" "]" '[' ']' rfl rfl, hparts]
    refine .of_cons rfl (by decide) fun fuel hfuel rest _ position => ?_
    rw [List.length_append] at hfuel
    obtain ⟨c, more, hv, hspace, hclose, -⟩ := (h v List.mem_cons_self).start
    obtain ⟨mid, hskip⟩ := skipSpace_newLine (level + 1) hspace
      (more ++ trail (level + 1) level (vs.map fun w => (str w).toList) ']' rest) (position + 1)
    have hread := readItems_trail (level + 1) level rest h fuel (by omega) [] mid
    rw [hv] at hread ⊢
    rw [List.append_assoc, List.append_assoc, trail_append, List.cons_append,
      readValue_list hskip hclose]
    exact hread.map Value.list

theorem readValue_map {mid : Nat} {more : List Char}
    (hskip : skipSpace ⟨cs, position + 1⟩ = ⟨c :: more, mid⟩) (hc : c ≠ '\x7d') :
    readValue (fuel + 1) (depth + 1) ⟨'\x7b' :: cs, position⟩ =
      (readEntries fuel depth [] ⟨c :: more, mid⟩).map fun p => (.map p.1, p.2) := by
  unfold readValue
  simp only [hskip]
  split
  · next heq => exact absurd (List.cons.inj heq).1 hc
  · rfl

theorem readsAs_map (level : Nat) (hkeys : (fields.map (·.1)).Nodup)
    (h : ∀ field ∈ fields, ReadsAs sure depth (str field.2).toList (back field.2)) :
    ReadsAs sure (depth + 1) (sortedLayout.enclose level "\x7b" "\x7d"
        (fields.map fun (k, v) => quoted k ++ ": " ++ str v)).toList
      (.map (entriesOf (fields.map fun (k, v) => (k, back v)))) := by
  cases fields with
  | nil =>
    have htext : (sortedLayout.enclose level "\x7b" "\x7d" []).toList = ['\x7b', '\x7d'] := by
      simp [Layout.enclose]
    rw [List.map_nil, htext]
    refine .of_cons rfl (by decide) fun fuel _ rest _ position => .inl ⟨position + 2, ?_⟩
    unfold readValue
    simp only [List.singleton_append, skipSpace_of_not (c := '\x7d') rfl]
    rfl
  | cons field fields =>
    have hline : ∀ f : String × Value, (quoted f.1 ++ ": " ++ str f.2).toList =
        entryText (fun v => (str v).toList) f := by
      intro f
      simp [entryText]
    have hparts : (fields.map fun (k, v) => quoted k ++ ": " ++ str v).map String.toList =
        fields.map (entryText fun v => (str v).toList) := by
      simp only [List.map_map, Function.comp_def, hline]
    rw [List.map_cons, toList_enclose level "\x7b" "\x7d" '\x7b' '\x7d' rfl rfl, hparts, hline]
    refine .of_cons rfl (by decide) fun fuel hfuel rest _ position => ?_
    rw [List.length_append] at hfuel
    obtain ⟨cs, -, htext, -⟩ := readString_entryText (fun v => (str v).toList) field
      (trail (level + 1) level (fields.map (entryText fun v => (str v).toList)) '\x7d' rest) 0
    obtain ⟨mid, hskip⟩ := skipSpace_newLine (level + 1) (c := '"') rfl cs (position + 1)
    have hread := readEntries_trail (level + 1) level rest (fun v => (str v).toList) h
      fuel (by omega) [] hkeys mid
    rw [htext] at hread
    rw [List.append_assoc, List.append_assoc, trail_append, htext,
      readValue_map hskip (by decide)]
    exact hread.map Value.map

end Layout

/-! All data. -/

theorem exists_readsAs_float (x : Binary64) :
    ∃ y, ∀ sure depth, ReadsAs sure depth (number x).toList (.float y) := by
  cases x with
  | nan => exact ⟨.nan, fun _ _ => readsAs_word (by simp [words, number])⟩
  | infinite negative =>
    refine ⟨.infinite negative, fun _ _ => readsAs_word ?_⟩
    cases negative <;> simp [words, number]
  | finite negative m e =>
    obtain ⟨hstart, y, hread⟩ := exists_readNumber?_finite negative m e
    refine ⟨y, fun _ _ => readsAs_number hstart fun rest hrest position => ?_⟩
    obtain ⟨next, hread⟩ := hread rest hrest position
    exact ⟨_, hread, .inl ⟨next, rfl⟩⟩

theorem renderItems_eq (l : Layout) (level : Nat) (vs : List Value) :
    l.renderItems level vs = vs.map (l.render level) := by
  induction vs with
  | nil => rfl
  | cons v vs ih => rw [Layout.renderItems, ih, List.map_cons]

theorem renderEntries_eq (l : Layout) (level : Nat) (es : List (Value × Value)) :
    l.renderEntries level es = es.map fun (k, v) => (keyPoints k, l.render level v) := by
  induction es with
  | nil => rfl
  | cons e es ih => rw [Layout.renderEntries, ih, List.map_cons]

/-- The fields in the order in which they are written. -/
def sortFields (fields : List (String × Value)) : List (String × Value) :=
  fields.mergeSort fun a b => Text.pointsLe (Text.points a.1) (Text.points b.1)

theorem entries_renderEntries (level : Nat) (fields : List (String × Value)) :
    sortedLayout.entries (sortedLayout.renderEntries level (entriesOf fields)) =
      (sortFields fields).map fun (k, v) => quoted k ++ ": " ++ sortedLayout.render level v := by
  have hsort : sortByKey (fields.map fun (k, v) => (Text.points k, sortedLayout.render level v)) =
      (sortFields fields).map fun (k, v) => (Text.points k, sortedLayout.render level v) := by
    unfold sortByKey sortFields
    rw [List.map_mergeSort]
    exact fun _ _ _ _ => rfl
  have hpoints : (entriesOf fields).map (fun (k, v) => (keyPoints k, sortedLayout.render level v)) =
      fields.map fun (k, v) => (Text.points k, sortedLayout.render level v) := List.map_map
  have hsorted : sortedLayout.sorted = true := rfl
  rw [renderEntries_eq, hpoints, Layout.entries, hsorted, if_pos rfl, hsort, List.map_map]
  simp only [Function.comp_def, quotedPoints_points]

theorem arranged_record (leaf : Value → Value) (fields : List (String × Value)) :
    (Value.record fields).arranged leaf =
      .map (entriesOf ((sortFields fields).map fun (k, v) => (k, v.arranged leaf))) := by
  have hentries : (sortFields fields).map (fun (k, v) => (Value.text k, v.arranged leaf)) =
      (fields.map fun (k, v) => (Value.text k, v.arranged leaf)).mergeSort Value.keyLe := by
    unfold sortFields
    rw [List.map_mergeSort]
    exact fun _ _ _ _ => rfl
  rw [Value.record, Value.arranged, Value.arrangedEntries_eq, entriesOf, List.map_map, List.map_map]
  exact congrArg Value.map hentries.symm

theorem readsAs_scalar {back : Binary64 → Binary64}
    (hback : ∀ x sure depth, ReadsAs sure depth (number x).toList (.float (back x)))
    (h : IsScalar v) (hshow : sure → v.isShowable = true) (depth level : Nat) :
    ReadsAs sure depth (sortedLayout.render level v).toList (leafBack back v) := by
  cases h with
  | null => exact readsAs_word (by simp [words, Layout.render, leafBack])
  | boolean b =>
    refine readsAs_word ?_
    cases b <;> simp [words, Layout.render, leafBack]
  | int n =>
    rw [Value.isShowable, decide_eq_true_eq] at hshow
    refine readsAs_number (startsNumber_int n) fun rest hrest position => ?_
    obtain ⟨next, hread⟩ := readNumber?_int n hrest position
    refine ⟨_, hread, ?_⟩
    split
    · exact .inl ⟨next, rfl⟩
    · next hlong => exact .inr ⟨fun hsure => hlong (hshow hsure), _, rfl⟩
  | float x => exact hback x sure depth
  | text s =>
    have hread : ReadsAs sure depth _ _ := readsAs_quotedPoints (Text.points s) depth
    rw [quotedPoints_points, ofPoints_rejoin_points] at hread
    exact hread
  | torn ps => exact readsAs_quotedPoints ps depth

theorem arranged_scalar (leaf : Value → Value) (h : IsScalar v) : v.arranged leaf = leaf v := by
  cases h <;> rfl

theorem isShowable_list :
    (Value.list vs).isShowable = true ↔ ∀ v ∈ vs, v.isShowable = true := by
  rw [Value.isShowable]
  induction vs with
  | nil => simp [Value.areShowable]
  | cons v vs ih => rw [Value.areShowable, Bool.and_eq_true, ih, List.forall_mem_cons]

theorem isShowable_record :
    (Value.record fields).isShowable = true ↔ ∀ f ∈ fields, f.2.isShowable = true := by
  rw [Value.record, Value.isShowable]
  induction fields with
  | nil => simp [Value.entriesAreShowable]
  | cons field fields ih =>
    rw [List.map_cons, Value.entriesAreShowable, Bool.and_eq_true, Bool.and_eq_true, ih,
      List.forall_mem_cons]
    exact and_congr_left fun _ => and_iff_right rfl

/-- How all data comes back that is written in lines with sorted keys. -/
theorem readsAs_render {back : Binary64 → Binary64}
    (hback : ∀ x sure depth, ReadsAs sure depth (number x).toList (.float (back x)))
    (h : Plain IsScalar depth v) (hshow : sure → v.isShowable = true) (level : Nat) :
    ReadsAs sure depth (sortedLayout.render level v).toList (v.arranged (leafBack back)) := by
  induction h generalizing level with
  | scalar hv =>
    rw [arranged_scalar _ hv]
    exact readsAs_scalar hback hv hshow _ level
  | list _ ih =>
    rw [Layout.render, renderItems_eq, Value.arranged, Value.arrangedAll_eq]
    exact readsAs_list level fun v hv =>
      ih v hv (fun hsure => isShowable_list.1 (hshow hsure) v hv) (level + 1)
  | @record depth fields hkeys _ ih =>
    have hperm : (sortFields fields).Perm fields := List.mergeSort_perm _ _
    have hsorted : ((sortFields fields).map (·.1)).Nodup := (hperm.map _).nodup_iff.2 hkeys
    have htext : sortedLayout.render level (.record fields) =
        sortedLayout.enclose level "\x7b" "\x7d" ((sortFields fields).map fun (k, v) =>
          quoted k ++ ": " ++ sortedLayout.render (level + 1) v) := by
      rw [← entries_renderEntries]
      rfl
    rw [arranged_record, htext]
    refine readsAs_map level hsorted fun field hfield => ?_
    have hmem := hperm.mem_iff.1 hfield
    exact ih field hmem (fun hsure => isShowable_record.1 (hshow hsure) field hmem) (level + 1)

/-- Text in lines with sorted keys is read as the data it was written for, with the keys of its
mappings sorted. Only a number that is too long to show keeps it from being read. -/
theorem exists_read_or_long : ∃ back : Binary64 → Binary64, ∀ v, Plain IsScalar maxDepth v →
    read (sortedLayout.write v ++ "\n") = .ok (v.arranged (leafBack back)) ∨
      v.isShowable = false ∧ ∃ size,
        read (sortedLayout.write v ++ "\n") = .error (.misfit (.integerTooLong size)) := by
  choose back hback using exists_readsAs_float
  refine ⟨back, fun v hv => ?_⟩
  have hreads := readsAs_render hback hv (id : v.isShowable = true → _) 0
  obtain ⟨c, more, htext, hspace, -, hmark⟩ := hreads.start
  have hlines : (sortedLayout.write v ++ "\n").toList = c :: (more ++ ['\n']) := by
    rw [String.toList_append, Layout.write, htext]
    rfl
  have hlength : (sortedLayout.render 0 v).toList.length ≤ (c :: (more ++ ['\n'])).length + 1 := by
    simp only [htext, List.length_cons, List.length_append]
    omega
  have hall (r : Except Stop (Value × Cursor)) (hr : readValue ((c :: (more ++ ['\n'])).length + 1)
      maxDepth ⟨c :: (more ++ ['\n']), 0⟩ = r) : readAll (c :: (more ++ ['\n'])) = (do
        let found ← r
        if (skipSpace found.2).rest.isEmpty then return found.1
        else complain .extraData (skipSpace found.2).position) := by
    unfold readAll
    split
    · next heq => exact absurd (List.cons.inj heq).1 hmark
    · rw [skipSpace_of_not hspace, hr]
  have hread := hreads.read _ hlength ['\n'] ⟨[], .inr rfl⟩ 0
  rw [htext, List.cons_append] at hread
  rw [read, hlines]
  rcases hread with ⟨next, hread⟩ | ⟨hlong, size, hread⟩
  · rw [hall _ hread]
    exact .inl rfl
  · rw [hall _ hread]
    exact .inr ⟨Bool.eq_false_iff.2 hlong, size, rfl⟩

theorem exists_read_write : ∃ back : Binary64 → Binary64, ∀ v, Plain IsScalar maxDepth v →
    v.isShowable = true →
      read (sortedLayout.write v ++ "\n") = .ok (v.arranged (leafBack back)) := by
  obtain ⟨back, hread⟩ := exists_read_or_long
  refine ⟨back, fun v hv hshow => (hread v hv).resolve_right fun hlong => ?_⟩
  exact Bool.eq_false_iff.1 hlong.1 hshow

theorem Plain.le {P : Value → Prop} {k m : Nat} (h : Plain P k v) (hkm : k ≤ m) : Plain P m v := by
  induction h generalizing m with
  | scalar hv => exact .scalar hv
  | list _ ih =>
    obtain ⟨m, rfl⟩ := Nat.exists_eq_add_of_le' (Nat.le_trans (Nat.le_add_left 1 _) hkm)
    exact .list fun v hv => ih v hv (by omega)
  | record hkeys _ ih =>
    obtain ⟨m, rfl⟩ := Nat.exists_eq_add_of_le' (Nat.le_trans (Nat.le_add_left 1 _) hkm)
    exact .record hkeys fun f hf => ih f hf (by omega)

end Acceptance.Json

import Acceptance.Proofs.CodeReading
/-!
What a line of code passes under a name, and which variable it sets. Both are read off the text of the
line: signs within quotes do not count, and those of a call count only within its parentheses. The code
line of a step passes what its binding does, and sets a variable where the step is an action.
-/
namespace Acceptance

open Text

namespace Emission

open Plan

/-! Reading code. -/

/-- How far a line of code has been read: the quote that is open and whether a backslash stands right
before, the number of open parentheses, the name whose operand is next, the word or text since the last
sign, and the operands that were found. -/
structure Scan where
  quote : Option Char
  escaped : Bool
  depth : Nat
  name : Option (List Char)
  word : List Char
  found : List (String × String)

namespace Scan

/-- An operand ends here, if it has a name. -/
def close (s : Scan) : Scan :=
  { s with name := none, word := [], found := s.found ++
      (s.name.map fun name => (String.ofList name, String.ofList s.word)).toList }

def step (s : Scan) (c : Char) : Scan :=
  match s.quote with
  | some q =>
    if s.escaped then { s with escaped := false, word := s.word ++ [c] }
    else if c = '\\' then { s with escaped := true, word := s.word ++ [c] }
    else if c = q then { s with quote := none, word := s.word ++ [c] }
    else { s with word := s.word ++ [c] }
  | none =>
    if c = '\'' ∨ c = '"' then { s with quote := some c, word := s.word ++ [c] }
    else if c = '(' then { s with depth := s.depth + 1, name := none, word := [] }
    else if c = ')' then { s.close with depth := s.depth - 1 }
    else if c = ',' then s.close
    else if c = '=' ∧ 0 < s.depth then { s with name := some s.word, word := [] }
    else if c = ' ' then { s with word := [] }
    else { s with word := s.word ++ [c] }

def run (s : Scan) (cs : List Char) : Scan := cs.foldl step s

def start : Scan := ⟨none, false, 0, none, [], []⟩

theorem run_cons (s : Scan) (c : Char) (cs : List Char) : s.run (c :: cs) = (s.step c).run cs := rfl

theorem run_append (s : Scan) (cs ds : List Char) : s.run (cs ++ ds) = (s.run cs).run ds :=
  List.foldl_append

end Scan

/-- The operands that a line of code passes by name, each with its text. -/
def namedOperands (line : String) : List (String × String) := (Scan.start.run line.toList).found

/-- The variable that a line of code sets. -/
def assigned? (line : String) : Option String :=
  let cs := line.toList.drop 4
  let name := cs.takeWhile Spec.isNameChar
  if line.toList.take 4 = "    ".toList ∧ name ≠ [] ∧
      [' ', '=', ' '] <+: cs.dropWhile Spec.isNameChar then
    some (String.ofList name)
  else none

namespace Scan

/-! Words and quoted texts. -/

/-- In the middle of a quoted text. -/
def inQuote (s : Scan) (q : Char) (w : List Char) : Scan :=
  { s with quote := some q, escaped := false, word := w }

def atWord (s : Scan) (w : List Char) : Scan := { s with quote := none, escaped := false, word := w }

variable {s : Scan} {q : Char} {w cs : List Char}

theorem run_inQuote (h : ∀ c ∈ cs, c ≠ '\\' ∧ c ≠ q) :
    (s.inQuote q w).run cs = s.inQuote q (w ++ cs) := by
  induction cs generalizing w with
  | nil => simp [run]
  | cons c cs ih =>
    obtain ⟨⟨hslash, hq⟩, hcs⟩ := List.forall_mem_cons.1 h
    have hstep : (s.inQuote q w).step c = s.inQuote q (w ++ [c]) := by
      simp [step, inQuote, hslash, hq]
    rw [run_cons, hstep, ih hcs, List.append_assoc]
    rfl

/-- Whatever stands behind a backslash does not close the quote. -/
theorem run_inQuote_slash (c : Char) (cs : List Char) :
    (s.inQuote q w).run ('\\' :: c :: cs) = (s.inQuote q (w ++ ['\\', c])).run cs := by
  simp [run_cons, step, inQuote]

theorem run_hex (hq : q = '\'' ∨ q = '"') (c : Char) (width n : Nat) :
    (s.inQuote q w).run ('\\' :: c :: hex width n) = s.inQuote q (w ++ '\\' :: c :: hex width n) := by
  have hdigits : ∀ d ∈ hex width n, d ≠ '\\' ∧ d ≠ q := by
    rcases hq with rfl | rfl
    · exact forall_mem_hex (by decide) width n
    · exact forall_mem_hex (by decide) width n
  rw [run_inQuote_slash, run_inQuote hdigits, List.append_assoc]
  rfl

theorem run_escapeChar (hq : q = '\'' ∨ q = '"') (c : Char) :
    (s.inQuote q w).run (escapeChar q c) = s.inQuote q (w ++ escapeChar q c) := by
  unfold escapeChar
  split_ifs with hown hn hr ht hprint hlow hmid
  · exact run_inQuote_slash c []
  · exact run_inQuote_slash 'n' []
  · exact run_inQuote_slash 'r' []
  · exact run_inQuote_slash 't' []
  · apply run_inQuote
    simpa [and_comm] using hown
  · exact run_hex hq 'x' 2 _
  · exact run_hex hq 'u' 4 _
  · exact run_hex hq 'U' 8 _

theorem run_escapePoints (hq : q = '\'' ∨ q = '"') (ps : List Nat) :
    (s.inQuote q w).run (ps.flatMap (escapePoint q)) =
      s.inQuote q (w ++ ps.flatMap (escapePoint q)) := by
  induction ps generalizing w with
  | nil => simp [run]
  | cons n ps ih =>
    have hpoint : (s.inQuote q w).run (escapePoint q n) = s.inQuote q (w ++ escapePoint q n) := by
      unfold escapePoint
      split
      · exact run_hex hq 'u' 4 n
      · exact run_escapeChar hq _
    rw [List.flatMap_cons, run_append, hpoint, ih, List.append_assoc]

/-- A quoted text is passed over as a whole. -/
theorem run_quotePoints (ps : List Nat) :
    (s.atWord w).run (quotePoints ps) = s.atWord (w ++ quotePoints ps) := by
  have hq := quoteFor_eq (visible ps)
  rw [quotePoints]
  -- which of the two quotes it is plays no part from here on
  generalize quoteFor (visible ps) = q at hq
  have hopen : (s.atWord w).step q = s.inQuote q (w ++ [q]) := by
    simp [step, atWord, inQuote, hq]
  have hclose (v : List Char) : (s.inQuote q v).step q = s.atWord (v ++ [q]) := by
    have hslash : q ≠ '\\' := by rcases hq with rfl | rfl <;> decide
    simp [step, atWord, inQuote, hslash]
  rw [List.cons_append, run_cons, hopen, run_append, run_escapePoints hq, run_cons, hclose]
  simp [run]

theorem run_bare (h : ∀ c ∈ cs, IsBare c) : (s.atWord w).run cs = s.atWord (w ++ cs) := by
  induction cs generalizing w with
  | nil => simp [run]
  | cons c cs ih =>
    obtain ⟨hc, hcs⟩ := List.forall_mem_cons.1 h
    have hsigns : ∀ d ∈ ['\'', '"', '(', ')', ',', '=', ' '], ¬IsBare d := forall_mem_of_all (by decide)
    have hne : ∀ d ∈ ['\'', '"', '(', ')', ',', '=', ' '], c ≠ d :=
      fun d hd hsame => hsigns d hd (hsame ▸ hc)
    have hstep : (s.atWord w).step c = s.atWord (w ++ [c]) := by
      simp only [List.forall_mem_cons] at hne
      simp [step, atWord, hne]
    rw [run_cons, hstep, ih hcs, List.append_assoc]
    rfl

theorem run_operand (o : Operand) : (s.atWord w).run o.code.toList = s.atWord (w ++ o.code.toList) := by
  cases h : o.points? with
  | none => exact run_bare (Operand.isBare_code h)
  | some ps =>
    rw [Operand.code_of_points? h]
    exact run_quotePoints ps

/-! Calls. -/

/-- Outside of calls. -/
def idle (w : List Char) (found : List (String × String)) : Scan := ⟨none, false, 0, none, w, found⟩

/-- Inside of a call, where the next name comes. -/
def inCall (found : List (String × String)) : Scan := ⟨none, false, 1, none, [], found⟩

/-- An operand as it is found. -/
def shown (a : Passed) : String × String := (a.1, a.2.code)

variable {a : Passed} {as : List Passed} {found : List (String × String)}

/-- Behind an operand, before the sign that ends it. -/
def atOperand (a : Passed) (found : List (String × String)) : Scan :=
  ⟨none, false, 1, some a.1.toList, a.2.code.toList, found⟩

theorem run_passedCode (ha : ∀ c ∈ a.1.toList, IsBare c) :
    (inCall found).run (passedCode a) = atOperand a found := by
  have hname : (inCall found).run a.1.toList = (inCall found).atWord a.1.toList :=
    run_bare (s := inCall found) (w := []) ha
  rw [passedCode, run_append, run_cons, hname]
  exact run_operand (s := atOperand a found) (w := []) a.2

theorem run_passedRest (ha : ∀ a ∈ as, ∀ c ∈ a.1.toList, IsBare c) :
    (atOperand a found).run (passedRest as) = idle [] (found ++ (a :: as).map shown) := by
  have hfound (a : Passed) : (String.ofList a.1.toList, String.ofList a.2.code.toList) = shown a := by
    simp [shown]
  induction as generalizing a found with
  | nil =>
    change idle [] (found ++ [(String.ofList a.1.toList, String.ofList a.2.code.toList)]) = _
    rw [hfound]
    rfl
  | cons b bs ih =>
    obtain ⟨hb, hbs⟩ := List.forall_mem_cons.1 ha
    have hrest : passedRest (b :: bs) = ',' :: ' ' :: (passedCode b ++ passedRest bs) := by
      simp [passedRest]
    have hcomma : ((atOperand a found).step ',').step ' ' = inCall (found ++ [shown a]) := by
      rw [← hfound]
      rfl
    rw [hrest, run_cons, run_cons, hcomma, run_append, run_passedCode hb, ih hbs]
    simp

theorem run_passedList (has : ∀ a ∈ as, ∀ c ∈ a.1.toList, IsBare c) :
    (inCall found).run (passedList as) = idle [] (found ++ as.map shown) := by
  cases as with
  | nil => rfl
  | cons a as =>
    obtain ⟨ha, has⟩ := List.forall_mem_cons.1 has
    rw [passedList, run_append, run_passedCode ha, run_passedRest has]

/-- Reading the text outside of a call finds these operands, and ends outside of a call. -/
def Finds (cs : List Char) (operands : List (String × String)) : Prop :=
  ∀ w found, ∃ v, (idle w found).run cs = idle v (found ++ operands)

theorem Finds.append {ds : List Char} {os ps : List (String × String)} (hcs : Finds cs os)
    (hds : Finds ds ps) : Finds (cs ++ ds) (os ++ ps) := by
  intro w found
  obtain ⟨v, hv⟩ := hcs w found
  obtain ⟨u, hu⟩ := hds v (found ++ os)
  exact ⟨u, by rw [run_append, hv, hu, List.append_assoc]⟩

/-- Text without quotes and parentheses passes nothing. -/
theorem finds_plain (h : ∀ c ∈ cs, c ∉ ['\'', '"', '(', ')']) : Finds cs [] := by
  intro w found
  rw [List.append_nil]
  induction cs generalizing w with
  | nil => exact ⟨w, rfl⟩
  | cons c cs ih =>
    obtain ⟨hc, hcs⟩ := List.forall_mem_cons.1 h
    obtain ⟨v, hv⟩ : ∃ v, (idle w found).step c = idle v found := by
      simp only [List.mem_cons, List.not_mem_nil, or_false, not_or] at hc
      simp only [step, idle, hc, or_self, if_false, Nat.lt_irrefl, and_false]
      split_ifs
      · exact ⟨[], by simp [close]⟩
      · exact ⟨[], rfl⟩
      · exact ⟨_, rfl⟩
    rw [run_cons, hv]
    exact ih hcs v

theorem finds_quotePoints (ps : List Nat) : Finds (quotePoints ps) [] := by
  intro w found
  rw [List.append_nil]
  exact ⟨_, run_quotePoints (s := idle [] found) ps⟩

theorem finds_operand (o : Operand) : Finds o.code.toList [] := by
  intro w found
  rw [List.append_nil]
  exact ⟨_, run_operand (s := idle [] found) o⟩

/-- A call passes its operands under their names. -/
theorem finds_callCode {operation : String} (hop : Registry.isDotted operation = true)
    (has : ∀ a ∈ as, ∀ c ∈ a.1.toList, IsBare c) : Finds (callCode operation as) (as.map shown) := by
  intro w found
  refine ⟨[], ?_⟩
  have hbare : ∀ c ∈ "ops.".toList ++ operation.toList, IsBare c :=
    List.forall_mem_append.2 ⟨forall_mem_of_all (by decide), isBare_of_isDotted hop⟩
  have hcall : callCode operation as = ("ops.".toList ++ operation.toList) ++ '(' :: passedList as := by
    simp [callCode]
  have hword := run_bare (s := idle [] found) (w := w) hbare
  rw [hcall, run_append, run_cons, show idle w found = (idle [] found).atWord w from rfl, hword]
  exact run_passedList has

end Scan

open Scan

theorem namedOperands_of_finds {line : String} {operands : List (String × String)}
    (h : Finds line.toList operands) : namedOperands line = operands := by
  obtain ⟨v, hv⟩ := h [] []
  rw [namedOperands, show start = idle [] [] from rfl, hv]
  rfl

/-! Lines of steps. -/

variable {ν : Type} [ToValue ν] {t : DraftStep ν} {n : Nat} {b : Binding String Parameter}

theorem finds_conditionCode {call : List Char} {os : List (String × String)} (hcall : Finds call os)
    (c : Comparison) (e : Option Literal) : Finds (conditionCode c call (expectedCode e)) os := by
  have hexpected : Finds (expectedCode e) [] := by
    cases e with
    | none => exact finds_plain (by simp [expectedCode])
    | some l => exact finds_operand (.literal l)
  unfold conditionCode
  split
  · have hnot : Finds "not ".toList [] := finds_plain (forall_mem_of_all (by decide))
    exact hnot.append hcall
  · have hin : Finds " in ".toList [] := finds_plain (forall_mem_of_all (by decide))
    exact hexpected.append (hin.append hcall)
  · have hbehind : Finds (behindCall c (expectedCode e)) [] := by
      unfold behindCall
      split
      · exact finds_plain (by simp)
      · have hsign : Finds (' ' :: (sign c ++ [' '])) [] := by
          apply finds_plain
          cases c <;> exact forall_mem_of_all (by decide)
        have hboth := hsign.append hexpected
        simpa using hboth
    simpa using hcall.append hbehind

/-- The code line of a step passes what its binding does. -/
theorem namedOperands_boundLine (hb : b.WellFormed t.kind) :
    namedOperands (boundLine n t b) = (passed n b).map shown := by
  apply namedOperands_of_finds
  have hname : ∀ c ∈ "result".toList, IsBare c := forall_mem_of_all (by decide)
  have hnames : ∀ a ∈ passed n b, ∀ c ∈ a.1.toList, IsBare c := by
    refine List.forall_mem_append.2 ⟨?_, List.forall_mem_map.2 fun a ha c hc => ?_⟩
    · split
      · exact List.forall_mem_singleton.2 hname
      · exact List.forall_mem_nil _
    · exact .inl (Registry.isNameChar_of_isName (hb.names a ha) c hc)
  have hcall := finds_callCode hb.operation hnames
  by_cases hk : t.kind = .outcome
  · have hlead : Finds "    assert ".toList [] := finds_plain (forall_mem_of_all (by decide))
    have hcomma : Finds ", ".toList [] := finds_plain (forall_mem_of_all (by decide))
    have hmessage : Finds (quoted (stepText (stepData t))).toList [] := by
      rw [← quotedPoints_points, quotedPoints, String.toList_ofList]
      exact finds_quotePoints _
    have hcondition := finds_conditionCode hcall b.comparison (b.expected.map (·.literal))
    have hline := hlead.append (hcondition.append (hcomma.append hmessage))
    rw [toList_boundLine_outcome n (hb.expected hk) hk]
    simpa using hline
  · have hindent : Finds "    ".toList [] := finds_plain (forall_mem_of_all (by decide))
    have hresult : Finds (if t.kind = .action then
        (Operand.result n).code.toList ++ " = ".toList else []) [] := by
      split
      · have hequals : Finds " = ".toList [] := finds_plain (forall_mem_of_all (by decide))
        exact (finds_operand (.result n)).append hequals
      · exact finds_plain (by simp)
    rw [toList_boundLine n b hk]
    exact hindent.append (hresult.append hcall)

example : namedOperands "    assert 'f(x=1' in ops.f(result=when_2, s='a, \\'b=2'), 'THEN x(y=1).'" =
    [("result", "when_2"), ("s", "'a, \\'b=2'")] := by decide

/-- The calls around the tests pass nothing. -/
theorem namedOperands_fixtureLines {r : Registry} (hr : r.Named) :
    ∀ line ∈ fixtureLines r, namedOperands line = [] := by
  have hcalls {operation : Option String} (hop : ∀ op ∈ operation, Registry.isDotted op = true) :
      ∀ line ∈ (operation.map fun op => s!"    ops.{op}()").toList, namedOperands line = [] := by
    intro line hline
    obtain ⟨op, hmem, rfl⟩ := Option.map_eq_some_iff.1 (Option.mem_toList.1 hline)
    have hindent : Finds "    ".toList [] := finds_plain (forall_mem_of_all (by decide))
    have hcall : Finds (callCode op []) [] := finds_callCode (hop op hmem) (List.forall_mem_nil _)
    have hcode : s!"    ops.{op}()".toList = "    ".toList ++ callCode op [] := by
      simp [toString, callCode, passedList]
    exact namedOperands_of_finds (hcode ▸ hindent.append hcall)
  unfold fixtureLines
  split
  · refine List.forall_mem_append.2 ⟨List.forall_mem_append.2 ⟨List.forall_mem_append.2
      ⟨List.forall_mem_append.2 ⟨?_, hcalls hr.setup⟩, ?_⟩, hcalls hr.teardown⟩, ?_⟩
    · exact List.forall_mem_cons.2 ⟨by decide, List.forall_mem_singleton.2 (by decide)⟩
    · exact List.forall_mem_singleton.2 (by decide)
    · exact List.forall_mem_cons.2 ⟨by decide, List.forall_mem_singleton.2 (by decide)⟩
  · exact List.forall_mem_nil _

/-! Lines that set a variable. -/

theorem assigned?_eq {line : String} {name rest : List Char}
    (hline : line.toList = "    ".toList ++ (name ++ rest))
    (hname : ∀ c ∈ name, Spec.isNameChar c = true) (hrest : ∀ c ∈ rest.head?, Spec.isNameChar c = false) :
    assigned? line =
      if name ≠ [] ∧ [' ', '=', ' '] <+: rest then some (String.ofList name) else none := by
  obtain ⟨htake, hdrop⟩ := span_append hname hrest
  have hindent : line.toList.take 4 = "    ".toList := by rw [hline]; rfl
  have hcode : line.toList.drop 4 = name ++ rest := by rw [hline]; rfl
  simp only [assigned?, hcode, htake, hdrop, hindent, true_and]

theorem assigned?_action (hk : t.kind = .action) : assigned? (boundLine n t b) = some (actionVariable n) := by
  have hline := toList_boundLine (t := t) n b (by rw [hk]; decide)
  rw [if_pos hk, List.append_assoc] at hline
  have hname : ∀ c ∈ (Operand.result n).code.toList, Spec.isNameChar c = true := by
    rw [Operand.code_result]
    refine List.forall_mem_append.2 ⟨forall_mem_of_all (by decide), fun c hc => ?_⟩
    exact isNameChar_of_isAsciiDigit (Json.isAsciiDigit_of_mem_toDigits hc)
  have hne : (Operand.result n).code.toList ≠ [] := by
    rw [Operand.code_result]
    simp
  rw [assigned?_eq hline hname (by simp [Spec.isNameChar, Spec.isLetter]),
    if_pos ⟨hne, List.prefix_append [' ', '=', ' '] _⟩]
  simp [Operand.code]

/-- What an outcome asserts does not start with an equals sign. -/
theorem exists_conditionCode_cons (c : Comparison) (operation : String) (as : List Passed)
    (e : Option Literal) : ∃ d cs,
      conditionCode c (callCode operation as) (expectedCode e) = d :: cs ∧ d ≠ '=' := by
  unfold conditionCode
  split
  · exact ⟨_, _, rfl, by decide⟩
  · cases e with
    | none => exact ⟨_, _, rfl, by decide⟩
    | some l =>
      have hcode : expectedCode (some l) = (Operand.literal l).code.toList := rfl
      rw [hcode]
      cases hpoints : (Operand.literal l).points? with
      | some ps =>
        rw [Operand.code_of_points? hpoints, quotePoints]
        refine ⟨_, _, rfl, ?_⟩
        rcases quoteFor_eq (visible ps) with hq | hq <;> rw [hq] <;> decide
      | none =>
        have hbare := Operand.isBare_code hpoints
        cases hcs : (Operand.literal l).code.toList with
        | nil => exact ⟨_, _, rfl, by decide⟩
        | cons d cs =>
          refine ⟨d, _, rfl, ?_⟩
          rintro rfl
          exact absurd (hbare '=' (hcs ▸ List.mem_cons_self)) (by decide)
  · exact ⟨_, _, rfl, by decide⟩

theorem assigned?_other (hb : b.WellFormed t.kind) (hk : t.kind ≠ .action) :
    assigned? (boundLine n t b) = none := by
  by_cases hout : t.kind = .outcome
  · obtain ⟨d, cs, hcs, hd⟩ := exists_conditionCode_cons b.comparison b.operation (passed n b)
      (b.expected.map (·.literal))
    have hline := toList_boundLine_outcome n (hb.expected hout) hout
    rw [hcs] at hline
    have hsplit : (boundLine n t b).toList = "    ".toList ++ ("assert".toList ++
        ' ' :: d :: (cs ++ (", ".toList ++ (quoted (stepText (stepData t))).toList))) := hline
    rw [assigned?_eq hsplit (forall_mem_of_all (by decide)) (by simp [Spec.isNameChar, Spec.isLetter]),
      if_neg]
    simp [List.cons_prefix_cons, hd.symm]
  · have hline := toList_boundLine n b hout
    rw [if_neg hk] at hline
    have hsplit : (boundLine n t b).toList = "    ".toList ++ ("ops".toList ++
        '.' :: (b.operation.toList ++ '(' :: passedList (passed n b))) := hline
    rw [assigned?_eq hsplit (forall_mem_of_all (by decide)) (by simp [Spec.isNameChar, Spec.isLetter]),
      if_neg]
    simp [List.cons_prefix_cons]

example : ["    when_2 = ops.f(n=1)", "    ops.f(n=1)", "    assert ops.f() == 1"].filterMap assigned? =
    ["when_2"] := by decide

theorem assigned?_commentLine (t : DraftStep ν) : assigned? (commentLine (stepData t)) = none := by
  have hline : (commentLine (stepData t)).toList =
      "    ".toList ++ ([] ++ '#' :: ' ' :: (stepText (stepData t)).toList) := by
    simp [commentLine, toString]
  rw [assigned?_eq hline (List.forall_mem_nil _) (by simp [Spec.isNameChar, Spec.isLetter]),
    if_neg (by simp)]

theorem assigned?_headLines (r : Registry) (name title id : String) :
    (headLines r name title (.text id)).filterMap assigned? = [] := by
  have hdef (arguments : String) : assigned? s!"def {name}({arguments}):" = none := by
    have hline : s!"def {name}({arguments}):".toList =
        "def ".toList ++ (name.toList ++ '(' :: (arguments.toList ++ "):".toList)) := by
      simp [toString]
    rw [assigned?, hline]
    exact if_neg fun h => absurd h.1 (by simp)
  have htitle : assigned? s!"    \"\"\"Scenario: {docText title}" = none := by
    have hline : s!"    \"\"\"Scenario: {docText title}".toList =
        "    ".toList ++ ([] ++ ("\"\"\"Scenario: ".toList ++ (docText title).toList)) := by
      simp [toString]
    rw [assigned?_eq hline (List.forall_mem_nil _) (by simp [Spec.isNameChar, Spec.isLetter]),
      if_neg (by simp)]
  have hid : assigned? s!"    Scenario id: {id}" = none := by
    have hline : s!"    Scenario id: {id}".toList =
        "    ".toList ++ ("Scenario".toList ++ (" id: ".toList ++ id.toList)) := by
      simp [toString]
    rw [assigned?_eq hline (forall_mem_of_all (by decide)) (by simp [Spec.isNameChar, Spec.isLetter]),
      if_neg (by simp [List.cons_prefix_cons])]
  rw [List.filterMap_eq_nil_iff]
  simp only [headLines, List.forall_mem_cons]
  exact ⟨hdef _, htitle, by decide, hid, by decide, List.forall_mem_nil _⟩

end Emission
end Acceptance

import Acceptance.Proofs.CodeReading
import Acceptance.Proofs.ScenarioIds
import Acceptance.Proofs.SourceTokens
/-!
Statements of test code. A line is read as an import, a call, an assignment of what a call gives, or an
assertion. The lines that are emitted are read as the statements that they were written for.
-/
namespace Acceptance.Source

open Text Emission

variable {op text : String} {c : Comparison} {b : Binding String Parameter} {n : Nat}
  {r : Registry}

/-! Statements. -/

/-- What stands for a value: a literal, or a name that is looked up, by itself or with a minus. -/
inductive Expr
  | literal (l : Literal)
  | name (s : String)
  | opposite (s : String)
  deriving DecidableEq, Repr

structure Call where
  path : List String
  args : List (String × Expr)
  deriving DecidableEq, Repr

inductive Condition
  | holds (c : Call)
  | fails (c : Call)
  | compares (sign : String) (c : Call) (e : Expr)
  | contains (e : Expr) (c : Call)
  deriving DecidableEq, Repr

inductive Statement
  | importAs (path : List String) (name : String)
  | call (c : Call)
  | assign (name : String) (c : Call)
  | check (c : Condition) (message : String)
  deriving DecidableEq, Repr

/-! Reading them from tokens. -/

def ofWord (s : String) : Expr :=
  if s = "True" then .literal (.boolean true)
  else if s = "False" then .literal (.boolean false)
  else .name s

/-- A number with the other sign. -/
def opposite? : Literal → Option Literal
  | .int n => some (.int (-n))
  | .float x => some (.float x.neg)
  | _ => none

def operand? : List Token → Option (Expr × List Token)
  | .literal l :: ts => some (.literal l, ts)
  | .word s :: ts => some (ofWord s, ts)
  | .sign "-" :: .literal l :: ts => (opposite? l).map fun l => (.literal l, ts)
  | .sign "-" :: .word s :: ts => some (.opposite s, ts)
  | _ => none

/-- The names that come behind points. -/
def members : List Token → List String × List Token
  | .sign "." :: .word s :: ts => (s :: (members ts).1, (members ts).2)
  | ts => ([], ts)

def path? : List Token → Option (List String × List Token)
  | .word s :: ts => some (s :: (members ts).1, (members ts).2)
  | _ => none

def arg? : List Token → Option ((String × Expr) × List Token)
  | .word s :: .sign "=" :: ts => (operand? ts).map fun (e, rest) => ((s, e), rest)
  | _ => none

/-- The arguments behind the first one. -/
def laterArgs? (ts : List Token) : Option (List (String × Expr) × List Token) :=
  match ts with
  | .sign ")" :: ts => some ([], ts)
  | .sign "," :: ts =>
    match arg? ts with
    | none => none
    | some (a, rest) =>
      if rest.length ≤ ts.length then
        (laterArgs? rest).map fun (as, rest) => (a :: as, rest)
      else none
  | _ => none
termination_by ts.length

def args? : List Token → Option (List (String × Expr) × List Token)
  | .sign ")" :: ts => some ([], ts)
  | ts => do
    let (a, rest) ← arg? ts
    let (as, rest) ← laterArgs? rest
    return (a :: as, rest)

def call? (ts : List Token) : Option (Call × List Token) :=
  match path? ts with
  | some (path, .sign "(" :: ts) => (args? ts).map fun (args, rest) => (⟨path, args⟩, rest)
  | _ => none

def comparisonSigns : List String := ["==", "!=", ">", ">=", "<", "<="]

/-- A condition that does not start with a negation. -/
def comparison? (ts : List Token) : Option (Condition × List Token) :=
  match call? ts with
  | some (c, .sign s :: rest) =>
    if s ∈ comparisonSigns then (operand? rest).map fun (e, rest) => (.compares s c e, rest)
    else some (.holds c, .sign s :: rest)
  | some (c, rest) => some (.holds c, rest)
  | none =>
    match operand? ts with
    | some (e, .word "in" :: rest) => (call? rest).map fun (c, rest) => (.contains e c, rest)
    | _ => none

def condition? : List Token → Option (Condition × List Token)
  | .word "not" :: ts => (call? ts).map fun (c, rest) => (.fails c, rest)
  | ts => comparison? ts

/-- A call with nothing behind it. -/
def lastCall? (ts : List Token) : Option Call :=
  match call? ts with
  | some (c, []) => some c
  | _ => none

def statement? : List Token → Option Statement
  | .word "import" :: ts =>
    match path? ts with
    | some (path, [.word "as", .word s]) => some (.importAs path s)
    | _ => none
  | .word "assert" :: ts =>
    match condition? ts with
    | some (c, [.sign ",", .literal (.text message)]) => some (.check c message)
    | _ => none
  | .word s :: .sign "=" :: ts => (lastCall? ts).map (.assign s)
  | ts => (lastCall? ts).map .call

/-- The statement of a line, whatever the words are that it takes as names. The spaces that place the
line in a block are passed over. -/
def read? (line : String) : Option Statement := (tokens? line.toList).bind statement?

example : read? "    assert -2 in ops.list.all(n='a'), \"THEN it\"" =
    some (.check (.contains (.literal (.int (-2))) ⟨["ops", "list", "all"], [("n", .literal (.text "a"))]⟩)
      "THEN it") := by decide +kernel

/-! Statements of steps. -/

/-- An operand as it is read. Numbers that are not finite are not literals: their words are names. -/
def exprOf : Operand → Expr
  | .result n => .name (actionVariable n)
  | .literal (.float .nan) => .name "nan"
  | .literal (.float (.infinite false)) => .name "inf"
  | .literal (.float (.infinite true)) => .opposite "inf"
  | .literal l => .literal l

/-- The names that are joined by points. -/
def segments (s : String) : List String := (splitAt '.' s.toList).map String.ofList

/-- The call of a binding; `n` is the number of the last action. -/
def callOf (n : Nat) (b : Binding String Parameter) : Call :=
  ⟨"ops" :: segments b.operation, (passed n b).map fun a => (a.1, exprOf a.2)⟩

def conditionOf (c : Comparison) (call : Call) (e : Option Expr) : Condition :=
  match c, e with
  | .falsy, _ => .fails call
  | .contains, some e => .contains e call
  | c, some e => .compares (String.ofList (sign c)) call e
  | _, none => .holds call

variable {ν : Type} [ToValue ν] {t : Plan.DraftStep ν}

/-- The statement of a step that is bound; `n` is the number of actions up to it. -/
def statementOf (n : Nat) (t : Plan.DraftStep ν) (b : Binding String Parameter) : Statement :=
  match t.kind with
  | .context => .call (callOf n b)
  | .action => .assign (actionVariable n) (callOf n b)
  | .outcome =>
    .check (conditionOf b.comparison (callOf n b) (b.expected.map fun p => exprOf (.literal p.literal)))
      (stepText (stepData t))

/-! Names that are joined by points. -/

variable {rest : List Char} {ts : List Token}

/-- The tokens of names behind points. -/
def memberTokens (parts : List (List Char)) : List Token :=
  parts.flatMap fun part => [.sign ".", .word (String.ofList part)]

theorem reads_members {parts : List (List Char)} (hparts : ∀ part ∈ parts, Registry.isName part = true)
    (hrest : ends rest = true) : Reads (parts.flatMap ('.' :: ·)) (memberTokens parts) rest := by
  induction parts with
  | nil => exact reads_nil
  | cons part parts ih =>
    obtain ⟨hname, hlater⟩ := List.forall_mem_cons.1 hparts
    have hends : ends (parts.flatMap ('.' :: ·) ++ rest) = true := by
      cases parts with
      | nil => exact hrest
      | cons => rfl
    have hpoint : Reads ['.'] [.sign "."] (part ++ (parts.flatMap ('.' :: ·) ++ rest)) := by
      cases part with
      | nil => cases hname
      | cons c part =>
        have hstart : Registry.isNameStart c = true := (Bool.and_eq_true_iff.1 hname).1
        have hc : c ≠ '.' := by
          intro h
          rw [h] at hstart
          exact absurd hstart (by decide)
        apply reads_of_takeToken? (by decide)
        change takeSign? ('.' :: c :: _) = _
        rw [takeSign?]
        simp [not_isAsciiDigit_of_isNameStart hstart, hc]
    have hread := (hpoint.append (reads_word hname hends)).append (ih hlater)
    simpa [memberTokens] using hread

theorem members_memberTokens (parts : List (List Char)) (hts : members ts = ([], ts)) :
    members (memberTokens parts ++ ts) = (parts.map String.ofList, ts) := by
  induction parts with
  | nil => exact hts
  | cons part parts ih =>
    change members (.sign "." :: .word (String.ofList part) :: (memberTokens parts ++ ts)) = _
    rw [members, ih]
    rfl

/-! Operands. -/

def operandTokens : Operand → List Token
  | .result n => [.word (actionVariable n)]
  | .literal l => literalTokens l

/-- The operand can be written. -/
def Shown : Operand → Prop
  | .result _ => True
  | .literal l => l.Shown

theorem isName_actionVariable (n : Nat) : Registry.isName (actionVariable n).toList = true := by
  have hdigits : ∀ c ∈ Nat.toDigits 10 n, Spec.isNameChar c = true := fun c hc =>
    isNameChar_of_isAsciiDigit (Json.isAsciiDigit_of_mem_toDigits hc)
  have hcode := Operand.code_result n
  rw [Operand.code] at hcode
  rw [hcode]
  change (true && ("hen_".toList ++ Nat.toDigits 10 n).all Spec.isNameChar) = true
  rw [List.all_append, Bool.true_and, Bool.and_eq_true]
  exact ⟨by decide, List.all_eq_true.2 hdigits⟩

theorem reads_operand {o : Operand} (ho : o.Canonical) (hshown : Shown o)
    (hrest : endsNumber rest = true) : Reads o.code.toList (operandTokens o) rest := by
  cases o with
  | result n => exact reads_name (isName_actionVariable n) (Bool.and_eq_true_iff.1 hrest).1
  | literal l => exact reads_code ho hshown hrest

/-- A number is read with its sign. -/
theorem operand?_signTokens {negative : Bool} {l l' : Literal}
    (h : (if negative then opposite? l else some l) = some l') (ts : List Token) :
    operand? (signTokens negative ++ [.literal l] ++ ts) = some (.literal l', ts) := by
  cases negative with
  | false =>
    cases h
    rfl
  | true =>
    change (opposite? l).map (fun l => (Expr.literal l, ts)) = _
    rw [show opposite? l = some l' from h]
    rfl

theorem actionVariable_ne {s : String} (hs : s.toList.head? ≠ some 'w') (n : Nat) :
    actionVariable n ≠ s := by
  intro h
  have hcode := Operand.code_result n
  rw [Operand.code, h] at hcode
  exact hs (hcode ▸ rfl)

theorem ofWord_actionVariable (n : Nat) : ofWord (actionVariable n) = .name (actionVariable n) := by
  rw [ofWord, if_neg (actionVariable_ne (by decide) n), if_neg (actionVariable_ne (by decide) n)]

theorem operand?_operandTokens (o : Operand) (ts : List Token) :
    operand? (operandTokens o ++ ts) = some (exprOf o, ts) := by
  cases o with
  | result n =>
    change some (ofWord (actionVariable n), ts) = _
    rw [ofWord_actionVariable, exprOf]
  | literal l =>
    cases l with
    | text s => rfl
    | torn ps => rfl
    | boolean b => cases b <;> rfl
    | int n =>
      apply operand?_signTokens
      by_cases hn : n < 0
      · simp only [hn, decide_true, if_true, opposite?]
        rw [Int.ofNat_natAbs_of_nonpos (Int.le_of_lt hn), Int.neg_neg]
      · simp only [hn, decide_false, Bool.false_eq_true, if_false]
        rw [Int.natAbs_of_nonneg (Int.not_lt.1 hn)]
    | float x =>
      cases x with
      | finite negative m e =>
        apply operand?_signTokens
        cases negative <;> rfl
      | nan => rfl
      | infinite negative => cases negative <;> rfl

/-! Calls. -/

/-- What is passed can be read: it has a name, and an operand that can be written. -/
structure IsReadable (a : Passed) : Prop where
  wellFormed : a.WellFormed
  shown : Shown a.2

def passedTokens (a : Passed) : List Token := .word a.1 :: .sign "=" :: operandTokens a.2

/-- The tokens behind the first operand of a call. -/
def laterTokens (as : List Passed) : List Token :=
  as.flatMap (fun a => .sign "," :: passedTokens a) ++ [.sign ")"]

/-- The tokens behind the opening parenthesis of a call. -/
def listTokens : List Passed → List Token
  | [] => [.sign ")"]
  | a :: as => passedTokens a ++ laterTokens as

variable {a : Passed} {as : List Passed}

theorem head?_code_ne {o : Operand} (ho : o.Canonical) : (o.code.toList ++ rest).head? ≠ some '=' := by
  obtain ⟨c, cs, hc⟩ := List.exists_cons_of_ne_nil (Operand.code_ne_nil ho)
  rw [hc]
  intro h
  cases h
  cases hp : o.points? with
  | none => exact absurd (Operand.isBare_code hp '=' (hc ▸ List.mem_cons_self)) (by decide)
  | some ps =>
    rw [Operand.code_of_points? hp] at hc
    have hquote : quoteFor (visible ps) = '=' := (List.cons.inj hc).1
    rcases quoteFor_eq (visible ps) with hq | hq <;> exact absurd (hq.symm.trans hquote) (by decide)

theorem reads_comma : Reads [','] [.sign ","] rest := reads_of_takeToken? (by decide) rfl

theorem reads_passed (ha : IsReadable a) (hrest : endsNumber rest = true) :
    Reads (passedCode a) (passedTokens a) rest := by
  have hname : Reads a.1.toList [.word a.1] ('=' :: a.2.code.toList ++ rest) :=
    reads_name ha.wellFormed.name rfl
  have hequals : Reads ['='] [.sign "="] (a.2.code.toList ++ rest) := by
    apply reads_of_takeToken? (by decide)
    have hhead : (a.2.code.toList ++ rest).head? ≠ some '=' := head?_code_ne ha.wellFormed.operand
    change takeSign? ('=' :: (a.2.code.toList ++ rest)) = _
    rw [takeSign?]
    intro cs hcs
    exact hhead (hcs ▸ rfl)
  exact hname.append (hequals.append (reads_operand ha.wellFormed.operand ha.shown hrest))

theorem endsNumber_passedRest (as : List Passed) (rest : List Char) :
    endsNumber (passedRest as ++ rest) = true := by
  cases as <;> rfl

theorem reads_passedRest (has : ∀ a ∈ as, IsReadable a) :
    Reads (passedRest as) (laterTokens as) rest := by
  induction as with
  | nil => exact reads_of_takeToken? (by decide) rfl
  | cons a as ih =>
    obtain ⟨ha, hlater⟩ := List.forall_mem_cons.1 has
    have hread := ((reads_comma.append reads_space).append
      (reads_passed ha (endsNumber_passedRest as rest))).append (ih hlater)
    simpa [passedRest, laterTokens] using hread

theorem reads_passedList (has : ∀ a ∈ as, IsReadable a) :
    Reads (passedList as) (listTokens as) rest := by
  cases as with
  | nil => exact reads_of_takeToken? (by decide) rfl
  | cons a as =>
    obtain ⟨ha, hlater⟩ := List.forall_mem_cons.1 has
    exact (reads_passed ha (endsNumber_passedRest as rest)).append (reads_passedRest hlater)

theorem arg?_passedTokens (a : Passed) (ts : List Token) :
    arg? (passedTokens a ++ ts) = some ((a.1, exprOf a.2), ts) := by
  change (operand? (operandTokens a.2 ++ ts)).map _ = _
  rw [operand?_operandTokens]
  rfl

theorem laterArgs?_laterTokens (as : List Passed) (ts : List Token) :
    laterArgs? (laterTokens as ++ ts) = some (as.map fun a => (a.1, exprOf a.2), ts) := by
  induction as with
  | nil =>
    change laterArgs? (.sign ")" :: ts) = _
    rw [laterArgs?]
    rfl
  | cons a as ih =>
    have hcons : laterTokens (a :: as) ++ ts =
        .sign "," :: (passedTokens a ++ (laterTokens as ++ ts)) := by
      simp [laterTokens]
    rw [hcons, laterArgs?, arg?_passedTokens]
    dsimp only
    rw [if_pos (by simp), ih]
    rfl

theorem args?_listTokens (as : List Passed) (ts : List Token) :
    args? (listTokens as ++ ts) = some (as.map fun a => (a.1, exprOf a.2), ts) := by
  cases as with
  | nil => rfl
  | cons a as =>
    have harg := arg?_passedTokens a (laterTokens as ++ ts)
    have hlater := laterArgs?_laterTokens as ts
    rw [listTokens, List.append_assoc]
    change (arg? (passedTokens a ++ (laterTokens as ++ ts))).bind _ = _
    rw [harg, Option.bind_some]
    change (laterArgs? (laterTokens as ++ ts)).bind _ = _
    rw [hlater]
    rfl

def callTokens (operation : String) (as : List Passed) : List Token :=
  .word "ops" :: (memberTokens (splitAt '.' operation.toList) ++ .sign "(" :: listTokens as)

theorem reads_callCode (hop : Registry.isDotted op = true) (has : ∀ a ∈ as, IsReadable a) :
    Reads (callCode op as) (callTokens op as) rest := by
  have hopen : Reads ['('] [.sign "("] (passedList as ++ rest) := reads_of_takeToken? (by decide) rfl
  have hpath : Reads ('.' :: op.toList) (memberTokens (splitAt '.' op.toList))
      ('(' :: passedList as ++ rest) := by
    rw [cons_eq_flatMap_splitAt]
    exact reads_members (List.all_eq_true.1 hop) rfl
  have hops : Reads "ops".toList [.word "ops"]
      ('.' :: op.toList ++ '(' :: passedList as ++ rest) := reads_name (by decide) rfl
  exact hops.append (hpath.append (hopen.append (reads_passedList has)))

theorem call?_callTokens (op : String) (as : List Passed) (ts : List Token) :
    call? (callTokens op as ++ ts) =
      some (⟨"ops" :: segments op, as.map fun a => (a.1, exprOf a.2)⟩, ts) := by
  have hpath : path? (callTokens op as ++ ts) =
      some ("ops" :: segments op, .sign "(" :: (listTokens as ++ ts)) := by
    have hopen : members (.sign "(" :: (listTokens as ++ ts)) = ([], .sign "(" :: (listTokens as ++ ts)) :=
      rfl
    rw [callTokens, List.cons_append, List.append_assoc, List.cons_append, path?,
      members_memberTokens _ hopen]
    rfl
  rw [call?, hpath]
  change (args? (listTokens as ++ ts)).map _ = _
  rw [args?_listTokens]
  rfl

/-! Conditions. -/

def conditionTokens (c : Comparison) (call e : List Token) : List Token :=
  match c with
  | .falsy => .word "not" :: call
  | .contains => e ++ .word "in" :: call
  | .truthy => call
  | c => call ++ .sign (String.ofList (sign c)) :: e

/-- The tokens of what is expected, if something is. -/
def expectedTokens (e : Option Literal) : List Token := (e.map literalTokens).getD []

theorem reads_sign (hc : c.takesExpected = true) (hne : c ≠ .contains) :
    Reads (sign c) [.sign (String.ofList (sign c))] (' ' :: rest) := by
  cases c with
  | truthy | falsy => cases hc
  | contains => exact absurd rfl hne
  | _ => exact reads_of_takeToken? (by decide) rfl

variable {e : Option Literal} {m : TestModule} {content : String}

theorem reads_condition (hop : Registry.isDotted op = true) (has : ∀ a ∈ as, IsReadable a)
    (he : e.isSome = c.takesExpected) (hl : ∀ l ∈ e, l.Canonical ∧ l.Shown)
    (hrest : endsNumber rest = true) : Reads (conditionCode c (callCode op as) (expectedCode e))
      (conditionTokens c (callTokens op as) (expectedTokens e)) rest := by
  have hcall {rest : List Char} : Reads (callCode op as) (callTokens op as) rest :=
    reads_callCode hop has
  have hexpected {rest : List Char} (htakes : c.takesExpected = true) (hrest : endsNumber rest = true) :
      Reads (expectedCode e) (expectedTokens e) rest := by
    obtain ⟨l, rfl⟩ := Option.isSome_iff_exists.1 (he.trans htakes)
    exact reads_code (hl l rfl).1 (hl l rfl).2 hrest
  have hcompared (htakes : c.takesExpected = true) (hne : c ≠ .contains) :
      Reads (callCode op as ++ (' ' :: (sign c ++ ' ' :: expectedCode e)))
        (callTokens op as ++ (.sign (String.ofList (sign c)) :: expectedTokens e)) rest := by
    have hsign := (reads_sign htakes hne).append (reads_space.append (hexpected htakes hrest))
    exact hcall.append (reads_space.append hsign)
  cases c with
  | truthy =>
    change Reads (callCode op as ++ []) _ rest
    rw [List.append_nil]
    exact hcall
  | falsy =>
    have hnot : Reads "not".toList [.word "not"] (' ' :: callCode op as ++ rest) :=
      reads_name (by decide) rfl
    exact hnot.append (reads_space.append hcall)
  | contains =>
    have hin : Reads "in".toList [.word "in"] (' ' :: callCode op as ++ rest) :=
      reads_name (by decide) rfl
    exact (hexpected rfl rfl).append (reads_space.append (hin.append (reads_space.append hcall)))
  | _ => exact hcompared rfl (by decide)

/-- A literal before a word is not the start of a call, nor of a negation. -/
theorem comparison?_literalTokens (l : Literal) (ts : List Token) :
    call? (literalTokens l ++ .word "in" :: ts) = none ∧
      condition? (literalTokens l ++ .word "in" :: ts) =
        comparison? (literalTokens l ++ .word "in" :: ts) := by
  cases l with
  | text s => exact ⟨rfl, rfl⟩
  | torn ps => exact ⟨rfl, rfl⟩
  | boolean b => cases b <;> exact ⟨rfl, rfl⟩
  | int n =>
    rw [literalTokens]
    cases decide (n < 0) <;> exact ⟨rfl, rfl⟩
  | float x =>
    cases x with
    | nan => exact ⟨rfl, rfl⟩
    | infinite negative => cases negative <;> exact ⟨rfl, rfl⟩
    | finite negative m e => cases negative <;> exact ⟨rfl, rfl⟩

theorem condition?_conditionTokens (he : e.isSome = c.takesExpected) (as : List Passed)
    (ts : List Token) :
    condition? (conditionTokens c (callTokens op as) (expectedTokens e) ++ .sign "," :: ts) =
      some (conditionOf c ⟨"ops" :: segments op, as.map fun a => (a.1, exprOf a.2)⟩
        (e.map fun l => exprOf (.literal l)), .sign "," :: ts) := by
  have hcall (ts : List Token) := call?_callTokens op as ts
  have hlead (ts : List Token) : condition? (callTokens op as ++ ts) =
      comparison? (callTokens op as ++ ts) := rfl
  have hoperand (l : Literal) (ts : List Token) : operand? (literalTokens l ++ ts) =
      some (exprOf (.literal l), ts) := operand?_operandTokens (.literal l) ts
  have hcompared (l : Literal) {s : String} (hs : s ∈ comparisonSigns) :
      condition? (callTokens op as ++ .sign s :: (literalTokens l ++ .sign "," :: ts)) =
        some (.compares s ⟨"ops" :: segments op, as.map fun a => (a.1, exprOf a.2)⟩
          (exprOf (.literal l)), .sign "," :: ts) := by
    rw [hlead, comparison?, hcall]
    dsimp only
    rw [if_pos hs, hoperand]
    rfl
  cases e with
  | none =>
    cases c with
    | truthy =>
      change comparison? (callTokens op as ++ .sign "," :: ts) = _
      rw [comparison?, hcall]
      rfl
    | falsy =>
      change (call? (callTokens op as ++ .sign "," :: ts)).map _ = _
      rw [hcall]
      rfl
    | _ => cases he
  | some l =>
    cases c with
    | truthy | falsy => cases he
    | contains =>
      obtain ⟨hnone, hcondition⟩ := comparison?_literalTokens l (callTokens op as ++ .sign "," :: ts)
      have happend : conditionTokens .contains (callTokens op as) (expectedTokens (some l)) ++
          .sign "," :: ts = literalTokens l ++ .word "in" :: (callTokens op as ++ .sign "," :: ts) :=
        List.append_assoc ..
      rw [happend, hcondition, comparison?, hnone, hoperand]
      change (call? (callTokens op as ++ .sign "," :: ts)).map _ = _
      rw [hcall]
      rfl
    | _ =>
      exact (congrArg condition? (List.append_assoc ..)).trans (hcompared l (by decide))

/-! Lines. -/

theorem reads_indent : Reads "    ".toList [] rest :=
  ((reads_space.append reads_space).append reads_space).append reads_space

theorem read?_of_reads {line : String} (h : Reads line.toList ts []) : read? line = statement? ts := by
  rw [read?, h.tokens?, Option.bind_some]

theorem isReadable_passed {k : Kind} (hb : b.WellFormed k) (hc : b.Canonical) (hs : b.Shown)
    (n : Nat) : ∀ a ∈ passed n b, IsReadable a := by
  intro a ha
  refine ⟨wellFormed_passed hb hc n a ha, ?_⟩
  rcases List.mem_append.1 ha with ha | ha
  · split at ha
    · rw [List.mem_singleton.1 ha]
      trivial
    · cases ha
  · obtain ⟨p, hp, rfl⟩ := List.mem_map.1 ha
    exact hs.args p hp

theorem lastCall?_callTokens (op : String) (as : List Passed) : lastCall? (callTokens op as) =
    some ⟨"ops" :: segments op, as.map fun a => (a.1, exprOf a.2)⟩ := by
  have hcall := call?_callTokens op as []
  rw [List.append_nil] at hcall
  rw [lastCall?, hcall]

theorem statement?_callTokens (op : String) (as : List Passed) : statement? (callTokens op as) =
    some (.call ⟨"ops" :: segments op, as.map fun a => (a.1, exprOf a.2)⟩) := by
  -- a point or a parenthesis is behind the first word, so it is not assigned to
  have hcall : statement? (callTokens op as) = (lastCall? (callTokens op as)).map .call := by
    unfold callTokens
    cases splitAt '.' op.toList <;> rfl
  rw [hcall, lastCall?_callTokens]
  rfl

theorem statement?_assign (n : Nat) (op : String) (as : List Passed) :
    statement? (.word (actionVariable n) :: .sign "=" :: callTokens op as) =
      some (.assign (actionVariable n) ⟨"ops" :: segments op, as.map fun a => (a.1, exprOf a.2)⟩) := by
  rw [statement?, lastCall?_callTokens]
  · rfl
  · exact actionVariable_ne (by decide) n
  · exact actionVariable_ne (by decide) n

theorem read?_plain (hb : b.WellFormed t.kind) (hc : b.Canonical) (hs : b.Shown)
    (hk : t.kind ≠ .outcome) : read? (boundLine n t b) = some (statementOf n t b) := by
  have hcall : Reads (callCode b.operation (passed n b)) (callTokens b.operation (passed n b)) [] :=
    reads_callCode hb.operation (isReadable_passed hb hc hs n)
  have hline := toList_boundLine n b hk
  cases hkind : t.kind with
  | outcome => exact absurd hkind hk
  | context =>
    rw [if_neg (by rw [hkind]; decide)] at hline
    have hread : Reads (boundLine n t b).toList (callTokens b.operation (passed n b)) [] := by
      rw [hline]
      exact reads_indent.append hcall
    rw [read?_of_reads hread, statementOf, hkind]
    exact statement?_callTokens _ _
  | action =>
    rw [if_pos hkind] at hline
    have hname : Reads (Operand.result n).code.toList [.word (actionVariable n)]
        (" = ".toList ++ callCode b.operation (passed n b) ++ []) :=
      reads_name (isName_actionVariable n) rfl
    have hequals : Reads " = ".toList [.sign "="] (callCode b.operation (passed n b) ++ []) := by
      apply reads_space.append
      have hsign : Reads ['='] [.sign "="] ([' '] ++ (callCode b.operation (passed n b) ++ [])) :=
        reads_of_takeToken? (by decide) rfl
      exact hsign.append reads_space
    have hread : Reads (boundLine n t b).toList
        (.word (actionVariable n) :: .sign "=" :: callTokens b.operation (passed n b)) [] := by
      rw [hline, List.append_assoc]
      exact reads_indent.append (hname.append (hequals.append hcall))
    rw [read?_of_reads hread, statementOf, hkind]
    exact statement?_assign _ _ _

theorem reads_assert : Reads "    assert ".toList [.word "assert"] rest := by
  have hword : Reads "assert".toList [.word "assert"] (' ' :: rest) := reads_name (by decide) rfl
  exact reads_indent.append (hword.append reads_space)

theorem read?_outcome (hb : b.WellFormed t.kind) (hc : b.Canonical) (hs : b.Shown)
    (hk : t.kind = .outcome) : read? (boundLine n t b) = some (statementOf n t b) := by
  have hexpected : (b.expected.map (·.literal)).isSome = b.comparison.takesExpected := by
    rw [Option.isSome_map]
    exact hb.expected hk
  have hl : ∀ l ∈ b.expected.map (·.literal), l.Canonical ∧ l.Shown := by
    intro l hl
    obtain ⟨p, hp, rfl⟩ := Option.map_eq_some_iff.1 hl
    exact ⟨hc.expected p hp, hs.expected p hp⟩
  have hmessage : Reads (", ".toList ++ (quoted (stepText (stepData t))).toList)
      [.sign ",", .literal (.text (stepText (stepData t)))] [] := by
    have hquoted : Reads (Literal.text (stepText (stepData t))).code.toList
        [.literal (.text (stepText (stepData t)))] [] := reads_code trivial rfl rfl
    exact (reads_comma.append reads_space).append hquoted
  have hread : Reads (boundLine n t b).toList (.word "assert" ::
      (conditionTokens b.comparison (callTokens b.operation (passed n b))
        (expectedTokens (b.expected.map (·.literal))) ++
          [.sign ",", .literal (.text (stepText (stepData t)))])) [] := by
    rw [toList_boundLine_outcome n (hb.expected hk) hk]
    exact reads_assert.append ((reads_condition hb.operation (isReadable_passed hb hc hs n) hexpected hl
      rfl).append hmessage)
  rw [read?_of_reads hread, statementOf, hk, statement?, condition?_conditionTokens hexpected]
  rw [Option.map_map]
  rfl

/-- The line of a step is read as the statement of the step. -/
theorem read?_boundLine (hb : b.WellFormed t.kind) (hc : b.Canonical) (hs : b.Shown) :
    read? (boundLine n t b) = some (statementOf n t b) := by
  by_cases hk : t.kind = .outcome
  · exact read?_outcome hb hc hs hk
  · exact read?_plain hb hc hs hk

/-- A call with no arguments, as setup and teardown are called. -/
theorem read?_fixtureCall (hop : Registry.isDotted op = true) :
    read? s!"    ops.{op}()" = some (.call ⟨"ops" :: segments op, []⟩) := by
  have hline : s!"    ops.{op}()".toList = "    ".toList ++ callCode op [] := by
    simp [callCode, passedList, toString]
  have hread : Reads s!"    ops.{op}()".toList (callTokens op []) [] := by
    rw [hline]
    exact reads_indent.append (reads_callCode hop (List.forall_mem_nil _))
  rw [read?_of_reads hread, statement?_callTokens]
  rfl

theorem read?_import {name : String} (hname : Registry.isDotted name = true) :
    read? s!"import {name} as ops" = some (.importAs (segments name) "ops") := by
  have hparts := cons_eq_flatMap_splitAt '.' name.toList
  have hnames : ∀ part ∈ splitAt '.' name.toList, Registry.isName part = true := List.all_eq_true.1 hname
  unfold segments
  cases hsplit : splitAt '.' name.toList with
  | nil =>
    rw [hsplit] at hparts
    cases hparts
  | cons part parts =>
    rw [hsplit] at hparts hnames
    obtain ⟨hpart, hlater⟩ := List.forall_mem_cons.1 hnames
    have hline : s!"import {name} as ops".toList =
        "import".toList ++ (' ' :: (part ++ (parts.flatMap ('.' :: ·) ++ " as ops".toList))) := by
      have hsame : name.toList = part ++ parts.flatMap ('.' :: ·) := (List.cons.inj hparts).2
      rw [← List.append_assoc part, ← hsame]
      simp [toString]
    have hbehind : Reads " as ops".toList [.word "as", .word "ops"] [] := by
      have has : Reads "as".toList [.word "as"] (" ops".toList ++ []) := reads_name (by decide) rfl
      have hops : Reads "ops".toList [.word "ops"] [] := reads_name (by decide) rfl
      exact reads_space.append (has.append (reads_space.append hops))
    have hends : ends (parts.flatMap ('.' :: ·) ++ " as ops".toList ++ []) = true := by
      cases parts <;> rfl
    have himport : Reads "import".toList [.word "import"]
        (' ' :: (part ++ (parts.flatMap ('.' :: ·) ++ " as ops".toList)) ++ []) :=
      reads_name (by decide) rfl
    have hread : Reads s!"import {name} as ops".toList (.word "import" :: .word (String.ofList part) ::
        (memberTokens parts ++ [.word "as", .word "ops"])) [] := by
      rw [hline]
      exact himport.append (reads_space.append ((reads_word hpart hends).append
        ((reads_members hlater rfl).append hbehind)))
    have has : members [.word "as", .word "ops"] = ([], [.word "as", .word "ops"]) := rfl
    rw [read?_of_reads hread, statement?, path?, members_memberTokens parts has]
    rfl

/-! Tests. -/

open Plan Json

theorem shown_of_record {p : Parameter}
    (h : (StoredParameter.ofParameter p).record.isShowable = true) : p.literal.Shown := by
  have hfields := isShowable_record.1 h
  simp only [List.forall_mem_cons] at hfields
  exact hfields.2.2.1

/-- What a step passes and expects is part of the data of the step. -/
theorem shown_of_stepRecord {t : DraftStep ν} (h : (stepRecord (stepData t)).isShowable = true)
    (hb : t.resolution = .resolved b) : b.Shown := by
  have hfields := (List.forall_mem_append.1 (isShowable_record.1 h)).2
  have hresolution : (stepData t).resolution = .resolved (b.map .text .ofParameter) := by
    change t.resolution.map _ _ _ = _
    rw [hb]
    rfl
  rw [hresolution] at hfields
  simp only [resolutionFields, List.forall_mem_cons, isShowable_record] at hfields
  obtain ⟨⟨-, hargs, -⟩, hexpected, -⟩ := hfields
  constructor
  · intro a ha
    apply shown_of_record
    apply isShowable_list.1 hargs
    exact List.mem_map_of_mem (List.mem_map_of_mem ha)
  · intro p hp
    apply shown_of_record
    rw [Binding.map, Option.mem_def.1 hp] at hexpected
    exact hexpected

theorem shown_of_write {d : Draft ν} (h : write d.stored = .ok text) :
    ∀ s ∈ d.scenarios, ∀ t ∈ s.steps, ∀ b, t.resolution = .resolved b → b.Shown := by
  intro s hs t ht b hb
  obtain ⟨hshow, -⟩ := isShowable_of_write h
  have hfields := isShowable_record.1 hshow
  simp only [List.forall_mem_cons] at hfields
  have hscenario : (scenarioRecord (draftData s)).isShowable = true := by
    apply isShowable_list.1 hfields.2.2.2.1
    exact List.mem_map_of_mem (List.mem_map_of_mem hs)
  have hkinds := (List.forall_mem_append.1 (isShowable_record.1 hscenario)).2
  have hkind := hkinds (listKey t.kind, _) (List.mem_map_of_mem (Kind.mem_all t.kind))
  apply shown_of_stepRecord _ hb
  apply isShowable_list.1 hkind
  apply List.mem_map_of_mem
  exact List.mem_filter.2 ⟨List.mem_map_of_mem ht, by simp [Step.map]⟩

/-- The code line of every step is read as the statement of the step. -/
def StepsRead (s : DraftScenario ν) (test : TestCode) : Prop :=
  ∀ i t, s.steps[i]? = some t → ∃ b span line, t.resolution = .resolved b ∧
    test.spans[i]? = some span ∧ test.lines[span.last - 1]? = some line ∧
      read? line = some (statementOf (actionsUpTo s.steps i) t b)

theorem stepsRead {v : Value} {origin : String} (hr : Registry.ofValue v origin = .ok r)
    (hcanonical : r.Canonical) {p d : Draft ν} (hd : p.resolve r = .ok d)
    (htext : write d.stored = .ok text) {ss : List (DraftScenario ν)} (hss : ss ⊆ d.scenarios)
    {slug : String} (hm : testModule r d.stored slug (ss.map draftData) = .ok m) :
    List.Forall₂ StepsRead ss m.tests := by
  obtain ⟨qs, hqs, rfl⟩ := testModule_eq_ok hm
  obtain ⟨htests, -⟩ := placedFrom_eq_ok hqs
  refine List.forall₂_map_right_iff.2 ((forall₂_mem htests).imp fun s q h => ?_)
  obtain ⟨hmem, -, taken, pairs, -, hpairs, htest⟩ := h
  have hs := hss hmem
  have hbound := wellFormed_of_resolve hr hd s hs
  intro i t ht
  have hstep := List.mem_of_getElem? ht
  obtain ⟨b, hb, -, hspan, -, hline⟩ := getElem?_testOf (r := r) q.test.name hpairs hbound ht
  rw [htest]
  refine ⟨b, _, _, hb, hspan, hline, read?_boundLine (hbound t hstep b hb) ?_ ?_⟩
  · exact canonical_of_resolve hcanonical hd s hs t hstep b hb
  · exact shown_of_write htext s hs t hstep b hb

/-! Specs with one test. -/

/-- The only test that comes of a spec. -/
structure SoleTest (r : Registry) (content : String) (d : Plan) (text : String) (m : TestModule)
    (test : TestCode) : Prop where
  resolve : ∃ spec p, Spec.parse content none = .ok spec ∧ ofSpec spec = .ok p ∧ p.resolve r = .ok d
  text : write d.stored = .ok text
  module : testModule r d.stored "x" (d.scenarios.map draftData) = .ok m
  tests : m.tests = [test]

/-- The tests that come of a spec, in some view of each with the plan. -/
def testViews {β : Type} (view : Plan → TestCode → β) (r : Registry) (content : String) :
    Option (List β) :=
  (Spec.parse content none).toOption.bind fun spec => (ofSpec spec).toOption.bind fun p =>
    (p.resolve r).toOption.bind fun d => (write d.stored).toOption.bind fun _ =>
      (testModule r d.stored "x" (d.scenarios.map draftData)).toOption.map fun m => m.tests.map (view d)

theorem exists_soleTest {β : Type} {view : Plan → TestCode → β} {b : β}
    (h : testViews view r content = some [b]) :
    ∃ d text m test, SoleTest r content d text m test ∧ view d test = b := by
  obtain ⟨spec, hspec, h⟩ := Option.bind_eq_some_iff.1 h
  obtain ⟨p, hp, h⟩ := Option.bind_eq_some_iff.1 h
  obtain ⟨d, hd, h⟩ := Option.bind_eq_some_iff.1 h
  obtain ⟨text, htext, h⟩ := Option.bind_eq_some_iff.1 h
  obtain ⟨m, hm, h⟩ := Option.map_eq_some_iff.1 h
  obtain ⟨test, htest, hview⟩ := List.map_eq_singleton_iff.1 h
  exact ⟨d, text, m, test, ⟨⟨spec, p, eq_ok_of_toOption hspec, eq_ok_of_toOption hp,
    eq_ok_of_toOption hd⟩, eq_ok_of_toOption htext, eq_ok_of_toOption hm, htest⟩, hview⟩

theorem SoleTest.exists_scenario {d : Plan} {test : TestCode} (h : SoleTest r content d text m test)
    {R : DraftScenario Nat → TestCode → Prop} (hall : List.Forall₂ R d.scenarios m.tests) :
    ∃ s, d.scenarios = [s] ∧ R s test := by
  rw [h.tests] at hall
  obtain ⟨s, ss, hs, hnone, hscenarios⟩ := List.forall₂_cons_right_iff.1 hall
  rw [List.forall₂_nil_right_iff.1 hnone] at hscenarios
  exact ⟨s, hscenarios, hs⟩

end Acceptance.Source

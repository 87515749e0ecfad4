import Acceptance.Fault
import Acceptance.Registry.Template
import Acceptance.Text.Spacing
/-!
Reading a registry from data. The checks are made in a fixed order, and the first flaw is reported.
-/
namespace Acceptance.Registry

open Text Spec

/-- Words that the language of the tests keeps for itself. -/
def reservedWords : List String :=
  ["False", "None", "True", "and", "as", "assert", "async", "await", "break", "class", "continue",
   "def", "del", "elif", "else", "except", "finally", "for", "from", "global", "if", "import", "in",
   "is", "lambda", "nonlocal", "not", "or", "pass", "raise", "return", "try", "while", "with",
   "yield"]

def templateKeys : List String :=
  ["kind", "pattern", "operation", "params", "expected", "expected_value", "compare", "pass_result"]

/-- The keys that only templates of outcomes have. -/
def outcomeKeys : List String := ["expected", "expected_value", "compare", "pass_result"]

def isName : List Char → Bool
  | [] => false
  | c :: cs => isNameStart c && cs.all isNameChar

/-- Names joined by points. -/
def isDotted (s : String) : Bool := (splitAt '.' s.toList).all isName

def sortTexts (ss : List String) : List String := ss.mergeSort (· ≤ ·)

abbrev Entries := List (Value × Value)

/-- Fails with a flaw unless a condition holds. -/
def demand (condition : Bool) (flaw : RegistryFlaw) : Except RegistryFlaw Unit :=
  if condition then .ok () else .error flaw

def hasKey (key : String) (es : Entries) : Bool := (Value.lookup? key es).isSome

def requireKeys (keys : List String) (es : Entries) : Except RegistryFlaw Unit :=
  match keys.find? (!hasKey · es) with
  | some key => .error (.missingKey key)
  | none => .ok ()

def member (es : Entries) (key : String) : Value := (Value.lookup? key es).getD .null

/-- Why a registry is refused: it has a flaw, or something that cannot even be shown. -/
inductive Refusal
  | flaw (f : RegistryFlaw)
  | misfit (m : Misfit)

def orRefuse {α : Type} (r : Except RegistryFlaw α) : Except Refusal α := r.mapError .flaw

/-- A refusal that shows a value, if it can be shown. -/
def refuse {α : Type} (v : Value) (flaw : RegistryFlaw) : Except Refusal α :=
  if v.isShowable then .error (.flaw flaw) else .error (.misfit .numberTooLongToShow)

/-- The text of a value, if it can be shown. -/
def shown (v : Value) : Except Refusal Phrase :=
  if v.isShowable then .ok v.phrase else .error (.misfit .numberTooLongToShow)

def dottedName (key : String) (v : Value) : Except Refusal String :=
  match v.text? with
  | some s => if isDotted s then .ok s else refuse v (.notDotted key v.literal)
  | none => refuse v (.notDotted key v.literal)

/-- A name that may be left out. -/
def dottedName? (key : String) (es : Entries) : Except Refusal (Option String) :=
  let v := member es key
  if v.isTruthy then (dottedName key v).map some else .ok none

/-- The keys of a mapping that are not among those known. Only texts can be listed. -/
def otherKeys (known : List String) (es : Entries) : Except Refusal (List Phrase) := do
  let others := es.filter fun (k, _) => !known.any fun s => k.text? == some s
  let names ← others.mapM fun (k, _) =>
    match k with
    | .text s => Except.ok (Phrase.ofText s)
    | .torn ps => .ok ⟨ps⟩
    | _ => .error (Refusal.misfit .wrongKind)
  return Phrase.sort names

def kindOf (v : Value) : Except Refusal Kind := do
  let name ← shown v
  match name.text?.bind Kind.ofKeyword? with
  | some k => return k
  | none => .error (.flaw (.invalidKind name))

/-- A pattern with single spaces and without a closing period. -/
def cleanPattern (cs : List Char) : List Char :=
  let cs := respace cs
  if cs.getLast? = some '.' then trimEnd cs.dropLast else cs

def patternOf (v : Value) : Except Refusal Phrase := do
  let pattern := (← shown v).change cleanPattern
  if pattern = "" then .error (.flaw .emptyPattern) else return pattern

/-- The names that come more than once, each listed once. -/
def repeated (names : List String) : List String :=
  sortTexts (names.filter fun n => names.count n > 1).eraseDups

def holeTypeOf (declared : Entries) (name : String) : Except Refusal (String × HoleType) := do
  let type ← shown ((Value.lookup? name declared).getD (.text "any"))
  match type.text?.bind HoleType.ofName? with
  | some t => return (name, t)
  | none => .error (.flaw (.unknownType type name))

def holesOf (pattern : Phrase) (params : Value) : Except Refusal (List (String × HoleType)) := do
  let declared ← match params.entries? with
    | some es => Except.ok es
    | none => if params.isTruthy then .error (.flaw .paramsNotAMapping) else .ok []
  let names := holeNames (pieces pattern.visible)
  orRefuse (demand (repeated names).isEmpty (.repeatedHoles (repeated names)))
  let reserved := sortTexts (names.filter (reservedWords.contains ·))
  orRefuse (demand reserved.isEmpty (.keywordHoles reserved))
  let undeclared ← otherKeys names declared
  orRefuse (demand undeclared.isEmpty (.paramsNotInPattern undeclared))
  names.mapM (holeTypeOf declared)

def comparisonOf (v : Value) : Except Refusal Comparison :=
  if v.isTruthy then
    match v.text?.bind Comparison.ofName? with
    | some c => .ok c
    | none => refuse v (.unknownComparison v.phrase)
  else .ok .eq

def constantOf (v : Value) : Except Refusal Literal :=
  match v with
  | .boolean b => .ok (.boolean b)
  | .int n => .ok (.int n)
  | .float x => .ok (.float x)
  | .text s => .ok (.text s)
  | .torn ps => .ok (.torn ps)
  | v => refuse v (.unsupportedConstant v.literal)

def isNull : Value → Bool
  | .null => true
  | _ => false

/-- The hole that is expected, if one is named. -/
def namedHole (names : List String) (v : Value) : Except Refusal (Option String) :=
  match v with
  | .null => .ok none
  | .text s => if s ∈ names then .ok (some s) else .error (.flaw (.expectedNotInPattern s))
  | v => refuse v (.expectedNotInPattern v.phrase)

/-- Comparison and expected hole of an outcome that names no expectation: its only hole is expected,
and without holes its result is to be true. -/
def impliedExpectation (names : List String) (compareGiven : Bool) (comparison : Comparison) :
    Except RegistryFlaw (Comparison × Option String) :=
  match names, compareGiven with
  | [name], _ => .ok (comparison, some name)
  | [], false => .ok (.truthy, none)
  | _, _ => .error (.needsExpected names)

/-- Comparison, expected hole and constant of an outcome. -/
def expectationOf (names : List String) (es : Entries) :
    Except Refusal (Comparison × Option String × Option Literal) := do
  let expected := member es "expected"
  let constant := member es "expected_value"
  let comparison ← comparisonOf (member es "compare")
  orRefuse (demand (isNull expected || isNull constant) .bothExpectations)
  let hole ← namedHole names expected
  let (comparison, hole) ←
    if !comparison.takesExpected then
      orRefuse
        (demand (isNull expected && isNull constant) (.noExpectationTaken comparison.name))
      pure (comparison, hole)
    else if isNull expected && isNull constant then
      orRefuse (impliedExpectation names (!isNull (member es "compare")) comparison)
    else pure (comparison, hole)
  let literal ← if isNull constant then pure none else (constantOf constant).map some
  return (comparison, hole, literal)

def templateOf (v : Value) : Except Refusal Template := do
  let es ← match v.entries? with
    | some es => Except.ok es
    | none => .error (.flaw .templateNotAMapping)
  orRefuse (requireKeys ["kind", "pattern", "operation"] es)
  let unknown ← otherKeys templateKeys es
  orRefuse (demand unknown.isEmpty (.unknownKeys unknown))
  let kind ← kindOf (member es "kind")
  let pattern ← patternOf (member es "pattern")
  let operation ← dottedName "operation" (member es "operation")
  let holes ← holesOf pattern (member es "params")
  let names := holes.map (·.1)
  let passResult := (member es "pass_result").isTruthy
  orRefuse (demand (!(passResult && names.contains "result")) .reservedResult)
  if kind = .outcome then
    let (comparison, hole, literal) ← expectationOf names es
    return ⟨kind, pattern, operation, holes, hole, literal, comparison, passResult⟩
  else
    match outcomeKeys.find? (hasKey · es) with
    | some key => .error (.flaw (.onlyForOutcomes key))
    | none => return ⟨kind, pattern, operation, holes, none, none, .eq, false⟩

def Refusal.fault (source : String) (template : Option Nat) : Refusal → Fault
  | .flaw f => .problem (.registry ⟨source, template, f⟩)
  | .misfit m => .misfit m

/-- The templates of entries, the first of which has number `i`; `seen` holds those before. -/
def templatesFrom (source : String) (i : Nat) (seen : List Template) :
    List Value → Outcome (List Template)
  | [] => .ok []
  | v :: vs => do
    let t ← (templateOf v).mapError (Refusal.fault source (some i))
    if seen.any fun s => s.kind = t.kind ∧ s.pattern = t.pattern then
      .error (Refusal.fault source (some i) (.flaw (.duplicatePattern t.kind t.pattern)))
    return t :: (← templatesFrom source (i + 1) (t :: seen) vs)

/-- The registry that a value stands for. -/
def ofValue (v : Value) (source : String) : Outcome Registry := do
  let whole := fun {α : Type} (r : Except Refusal α) => r.mapError (Refusal.fault source none)
  let es ← match v.entries? with
    | some es => pure es
    | none => whole (.error (.flaw .notAMapping))
  whole (orRefuse (requireKeys ["module", "templates"] es))
  let moduleName ← whole (dottedName "module" (member es "module"))
  let setup ← whole (dottedName? "setup" es)
  let teardown ← whole (dottedName? "teardown" es)
  let entries ← match (member es "templates").items? with
    | some vs => pure vs
    | none => whole (.error (.flaw .templatesNotAList))
  let templates ← templatesFrom source 0 [] entries
  return ⟨moduleName, templates, setup, teardown, source⟩

/-- The captures of a pattern in each of some texts. Every hole has to have a name of its own. -/
def matchAll (pattern : String) (texts : List String) :
    Outcome (List (Option (List (String × String)))) :=
  if (repeated (holeNames (pieces pattern))).isEmpty then .ok (texts.map (captures? pattern))
  else .error .repeatedHole

end Acceptance.Registry

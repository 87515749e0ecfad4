/-!
What a command has told, as it arrives where there is no terminal: without the control sequences
that terminals act on, and with a line feed at the end of each line.
-/
namespace Acceptance.Command

def isParameter (c : Char) : Bool := 0x30 ≤ c.toNat && c.toNat ≤ 0x3f

def isIntermediate (c : Char) : Bool := 0x20 ≤ c.toNat && c.toNat ≤ 0x2f

def isFinal (c : Char) : Bool := 0x40 ≤ c.toNat && c.toNat ≤ 0x7e

/-- The rest of a text that starts with a control sequence: the escape character, a bracket, any
parameters, any intermediate characters, and one character that ends it. -/
def afterControl? : List Char → Option (List Char)
  | '\x1b' :: '[' :: cs =>
    match (cs.dropWhile isParameter).dropWhile isIntermediate with
    | [] => none
    | c :: rest => if isFinal c then some rest else none
  | _ => none

theorem length_lt_of_afterControl? {cs rest : List Char} (h : afterControl? cs = some rest) :
    rest.length < cs.length := by
  unfold afterControl? at h
  split at h
  · next ds =>
    have outer := (List.dropWhile_suffix isParameter (l := ds)).length_le
    have inner := (List.dropWhile_suffix isIntermediate (l := ds.dropWhile isParameter)).length_le
    split at h
    · contradiction
    · next c tail ended =>
      rw [ended] at inner
      split at h
      · cases h
        simp only [List.length_cons] at inner ⊢
        omega
      · contradiction
  · contradiction

/-- A text with its control sequences left out. What is left is not looked at again. -/
def withoutControls (cs : List Char) : List Char :=
  match _h : afterControl? cs with
  | some rest => withoutControls rest
  | none =>
    match cs with
    | [] => []
    | c :: rest => c :: withoutControls rest
termination_by cs.length
decreasing_by
  · exact length_lt_of_afterControl? ‹_›
  · simp

/-- Carriage returns right before line feeds are left out. -/
def withoutReturns : List Char → List Char
  | [] => []
  | '\r' :: '\n' :: cs => '\n' :: withoutReturns cs
  | c :: cs => c :: withoutReturns cs

/-- The text of all that was told. -/
def transcript (told : List String) : String :=
  let text := told.flatMap fun s => s.toList ++ ['\n']
  String.ofList (withoutReturns (withoutControls text))

example : withoutControls "\x1b[1;31mred\x1b[0m".toList = "red".toList := by cbv
example : withoutControls "\x1b[\x1b[0m1m".toList = "\x1b[1m".toList := by cbv
example : withoutReturns "a\r\r\nb\r".toList = "a\r\nb\r".toList := by decide

end Acceptance.Command

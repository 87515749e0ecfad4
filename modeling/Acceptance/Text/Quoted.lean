import Acceptance.Text.Printable
/-!
A text as a quoted source literal. Single quotes are the rule; a text with single quotes and no
double quotes is put in double quotes. Characters that do not print are written by number.
-/
namespace Acceptance.Text

def hexDigit (n : Nat) : Char := Nat.digitChar (n % 16)

/-- The last `width` hexadecimal digits of `n`. -/
def hex : Nat → Nat → List Char
  | 0, _ => []
  | width + 1, n => hex width (n / 16) ++ [hexDigit n]

def escapeChar (quote c : Char) : List Char :=
  if c = quote || c = '\\' then ['\\', c]
  else if c = '\n' then ['\\', 'n']
  else if c = '\r' then ['\\', 'r']
  else if c = '\t' then ['\\', 't']
  else if isPrintable c then [c]
  else if c.toNat < 0x100 then '\\' :: 'x' :: hex 2 c.toNat
  else if c.toNat < 0x10000 then '\\' :: 'u' :: hex 4 c.toNat
  else '\\' :: 'U' :: hex 8 c.toNat

def quoteFor (cs : List Char) : Char := if '\'' ∈ cs ∧ '"' ∉ cs then '"' else '\''

def quote (cs : List Char) : List Char :=
  let q := quoteFor cs
  q :: cs.flatMap (escapeChar q) ++ [q]

def quoted (s : String) : String := String.ofList (quote s.toList)

example : quote "it's".toList = "\"it's\"".toList := by decide
example : quote "a\n\x7f".toList = "'a\\n\\x7f'".toList := by decide

end Acceptance.Text

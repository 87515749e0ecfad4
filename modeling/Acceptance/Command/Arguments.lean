/-!
The command line: which command its words ask for.
-/
namespace Acceptance

inductive Command
  | help
  | version
  | init
  | new (description : String)
  | parse (inspect : Bool)
  | resolve
  | generate
  | test (select : List String)
  | run (json : Bool) (select : List String)
  | status
  deriving DecidableEq, Repr

namespace Command

/-- Words sorted into flags, options with their values, and the rest. -/
structure Words where
  flags : List String := []
  values : List (String × String) := []
  plain : List String := []
  deriving DecidableEq, Repr

namespace Words

def addFlag (name : String) (w : Words) : Words := { w with flags := name :: w.flags }

def addValue (name value : String) (w : Words) : Words :=
  { w with values := (name, value) :: w.values }

def addPlain (word : String) (w : Words) : Words := { w with plain := word :: w.plain }

def has (w : Words) (flag : String) : Bool := w.flags.contains flag

def all (w : Words) (name : String) : List String :=
  w.values.filterMap fun (n, v) => if n = name then some v else none

end Words

def isOption (word : String) : Bool :=
  match word.toList with
  | '-' :: _ :: _ => true
  | _ => false

/-- An option and the value that is joined to it by an equals sign. -/
def splitOption (word : String) : String × Option String :=
  let name := word.toList.takeWhile (· ≠ '=')
  match word.toList.drop name.length with
  | _ :: value => (String.ofList name, some (String.ofList value))
  | [] => (word, none)

/-- The words of a command that knows some flags and some options with a value. Options may stand
anywhere up to a double dash. There are none if an option is unknown, or lacks its value, or has a
value that it does not take. -/
def readWords (flags options : List String) : List String → Option Words
  | [] => some {}
  | word :: rest =>
    if word = "--" then some { plain := rest }
    else if isOption word then
      match splitOption word with
      | (name, none) =>
        if flags.contains name then (readWords flags options rest).map (·.addFlag name)
        else if options.contains name then
          match rest with
          | value :: rest => (readWords flags options rest).map (·.addValue name value)
          | [] => none
        else none
      | (name, some value) =>
        if options.contains name then (readWords flags options rest).map (·.addValue name value)
        else none
    else (readWords flags options rest).map (·.addPlain word)

def select : String := "--select"

/-- A command that takes no plain words. -/
def alone (w : Words) (c : Command) : Option Command := if w.plain.isEmpty then some c else none

/-- The command of a name and the words behind it. -/
def named (name : String) (rest : List String) : Option Command :=
  let read := fun flags options (make : Words → Option Command) => do
    let w ← readWords ("--help" :: flags) options rest
    if w.has "--help" then some .help else make w
  match name with
  | "init" => read [] [] (alone · .init)
  | "new" => read [] [] fun w =>
    match w.plain with
    | [description] => some (.new description)
    | _ => none
  | "parse" => read ["--inspect"] [] fun w => alone w (.parse (w.has "--inspect"))
  | "resolve" => read [] [] (alone · .resolve)
  | "generate" => read [] [] (alone · .generate)
  | "test" => read [] [select] fun w => alone w (.test (w.all select))
  | "run" => read ["--json"] [select] fun w => alone w (.run (w.has "--json") (w.all select))
  | "status" => read [] [] (alone · .status)
  | _ => none

/-- Is the word one dash and then only the letter of the flag for more messages? -/
def isVerbose (word : String) : Bool :=
  word == "--verbose" ||
    match word.toList with
    | '-' :: letters => !letters.isEmpty && letters.all (· == 'v')
    | _ => false

/-- Takes the words for the program as a whole off the front, up to a double dash or to the first
word that is no option. Of the requests among them the first counts. There are none if an option is
unknown. -/
def readLeading (asked : Option Command) : List String → Option (Option Command × List String)
  | [] => some (asked, [])
  | word :: rest =>
    if word = "--version" then readLeading (asked <|> some .version) rest
    else if word = "--help" then readLeading (asked <|> some .help) rest
    else if isVerbose word then readLeading asked rest
    else if word = "--" then some (asked, rest)
    else if isOption word then none
    else some (asked, word :: rest)

/-- The command that the words ask for; there is none if they cannot be understood. What is asked of
the program as a whole comes first. Where there is no command of a name, the name and what is behind
it may still ask something of the program as a whole. -/
def read (words : List String) : Option Command := do
  let (asked, rest) ← readLeading none words
  match asked, rest with
  | some c, _ => some c
  | none, [] => none
  | none, name :: more => named name more <|> (readLeading none rest).bind (·.1)

end Command
end Acceptance

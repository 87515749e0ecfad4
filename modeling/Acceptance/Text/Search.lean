/-!
Finding one text inside another.
-/
namespace Acceptance.Text

/-- Does `p` occur in the text as an unbroken part? -/
def occurs (p : List Char) : List Char → Bool
  | [] => p.isEmpty
  | c :: cs => p.isPrefixOf (c :: cs) || occurs p cs

/-- The texts between the separators, which are single characters or code points. -/
def splitAt {α : Type} [DecidableEq α] (sep : α) : List α → List (List α)
  | [] => [[]]
  | c :: cs =>
    if c = sep then [] :: splitAt sep cs
    else match splitAt sep cs with
      | [] => [[c]]
      | l :: ls => (c :: l) :: ls

def occursIn (p s : String) : Bool := occurs p.toList s.toList

end Acceptance.Text

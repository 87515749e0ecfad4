/-!
Classes of characters given by runs: the lengths of the stretches of code points that lie outside
and inside the class in turn, the first one outside.
-/
namespace Acceptance.Text

/-- Is code point `n`, counted from the start of the runs, in the class? `here` tells whether the
first run lies inside. -/
def inRuns (here : Bool) : List Nat → Nat → Bool
  | [], _ => false
  | w :: ws, n => if n < w then here else inRuns (!here) ws (n - w)

end Acceptance.Text

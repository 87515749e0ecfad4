/-!
Kinds of steps. A scenario sets a context, takes actions and states outcomes, in this order.
-/
namespace Acceptance

inductive Kind
  | context
  | action
  | outcome
  deriving DecidableEq, Repr

namespace Kind

def all : List Kind := [.context, .action, .outcome]

def keyword : Kind → String
  | .context => "GIVEN"
  | .action => "WHEN"
  | .outcome => "THEN"

def rank : Kind → Nat
  | .context => 0
  | .action => 1
  | .outcome => 2

/-- May a step of kind `k` directly follow one of kind `j`? Kinds never go back. -/
def mayFollow (k j : Kind) : Bool := j.rank ≤ k.rank

def ofKeyword? (s : String) : Option Kind := all.find? (·.keyword == s)

theorem mayFollow_self (k : Kind) : k.mayFollow k = true := by
  cases k <;> rfl

theorem mem_all (k : Kind) : k ∈ all := by
  cases k <;> simp [all]

end Kind
end Acceptance

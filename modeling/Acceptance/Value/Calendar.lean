import Acceptance.Value.Basic
/-!
Counting days and moments, so that moments with different offsets can be compared.
-/
namespace Acceptance

namespace Date

def isLeap (year : Nat) : Bool := year % 4 = 0 && (year % 100 ≠ 0 || year % 400 = 0)

def daysIn (year month : Nat) : Nat :=
  if month = 2 then if isLeap year then 29 else 28
  else if month = 4 || month = 6 || month = 9 || month = 11 then 30
  else 31

/-- The days of a year before a month. -/
def daysBefore (year month : Nat) : Nat :=
  (List.range (month - 1)).foldl (fun n m => n + daysIn year (m + 1)) 0

/-- The days up to a date, counted from the first of year one. -/
def number (d : Date) : Nat :=
  let y := d.year - 1
  365 * y + y / 4 - y / 100 + y / 400 + daysBefore d.year d.month + d.day

example : number ⟨1, 1, 1⟩ = 1 ∧ number ⟨2000, 3, 1⟩ = number ⟨2000, 2, 29⟩ + 1 := by decide

end Date

namespace Moment

/-- The microseconds up to a moment, by the clock that shows it. -/
def clock (m : Moment) : Int :=
  (((m.date.number * 24 + m.hour) * 60 + m.minute) * 60 + m.second) * 1000000 + m.micro

/-- Is it the same moment? With an offset and without one, moments cannot be compared. -/
def same (a b : Moment) : Bool :=
  match a.offset, b.offset with
  | none, none => a.clock == b.clock
  | some s, some t => a.clock - s * 60000000 == b.clock - t * 60000000
  | _, _ => false

end Moment
end Acceptance

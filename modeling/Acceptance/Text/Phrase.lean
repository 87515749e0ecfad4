import Acceptance.Text.Blank
import Acceptance.Text.Points
/-!
Phrases: what is told of data. A phrase has the code points of the data that it shows, halves of
surrogate pairs among them; only a phrase without halves can be written out.
-/
namespace Acceptance

structure Phrase where
  points : List Nat
  deriving DecidableEq, Repr

namespace Phrase

def ofText (s : String) : Phrase := ⟨Text.points s⟩

instance : Coe String Phrase := ⟨ofText⟩

instance : Append Phrase := ⟨fun p q => ⟨p.points ++ q.points⟩⟩

/-- The text of a phrase without halves. -/
def text? (p : Phrase) : Option String := Text.ofPoints? p.points

/-- The characters of a phrase, with the replacement character in the place of halves. -/
def visible (p : Phrase) : String := String.ofList (Text.visible p.points)

/-- Phrases one after the other, with a text between them. -/
def join (between : String) : List Phrase → Phrase
  | [] => ""
  | [p] => p
  | p :: q :: ps => p ++ between ++ join between (q :: ps)

def isBlankPoint (n : Nat) : Bool := !Text.isHalf n && Text.isBlank (Char.ofNat n)

/-- The phrase without blanks at its start and end. -/
def trim (p : Phrase) : Phrase :=
  let ps := p.points.dropWhile isBlankPoint
  ⟨(ps.reverse.dropWhile isBlankPoint).reverse⟩

/-- Characters as code points, where the given ones take the place of replacement characters. -/
def refill : List Nat → List Char → List Nat
  | _, [] => []
  | [], c :: cs => c.toNat :: refill [] cs
  | n :: ns, c :: cs => if c = '\ufffd' then n :: refill ns cs else c.toNat :: refill (n :: ns) cs

/-- The phrase after a change to its characters that keeps all its replacement characters. -/
def change (p : Phrase) (f : List Char → List Char) : Phrase :=
  let kept := p.points.filter fun n => Text.isHalf n || n == 0xfffd
  ⟨refill kept (f (Text.visible p.points))⟩

/-- Phrases in order; the first code point that differs decides. -/
def sort (ps : List Phrase) : List Phrase :=
  ps.mergeSort fun p q => Text.pointsLe p.points q.points

theorem points_append (p q : Phrase) : (p ++ q).points = p.points ++ q.points := rfl

@[simp] theorem visible_ofText (s : String) : (ofText s).visible = s := by
  simp [visible, ofText]

@[simp] theorem text?_ofText (s : String) : (ofText s).text? = some s :=
  Text.ofPoints?_points s

theorem refill_eq_map {ns : List Nat} (h : ∀ n ∈ ns, n = 0xfffd) (cs : List Char) :
    refill ns cs = cs.map Char.toNat := by
  induction cs generalizing ns with
  | nil => cases ns <;> rfl
  | cons c cs ih =>
    cases ns with
    | nil => simp [refill, ih h]
    | cons n ns =>
      rw [refill]
      split
      · next hc =>
        have hn : n = c.toNat := by
          rw [h n (by simp), hc]
          rfl
        rw [ih fun m hm => h m (by simp [hm]), List.map_cons, hn]
      · rw [ih h, List.map_cons]

/-- A phrase that is a text is changed as its text is. -/
theorem change_ofText (s : String) (f : List Char → List Char) :
    (ofText s).change f = ofText (String.ofList (f s.toList)) := by
  have kept : ∀ n ∈ (Text.points s).filter (fun n => Text.isHalf n || n == 0xfffd),
      n = 0xfffd := by
    intro n hn
    simp only [List.mem_filter, Text.points, List.mem_map] at hn
    obtain ⟨⟨c, -, rfl⟩, hc⟩ := hn
    simpa [Text.isHalf_toNat] using hc
  show Phrase.mk (refill ((Text.points s).filter _) (f (Text.visible (Text.points s)))) = _
  rw [refill_eq_map kept, Text.visible_points, ofText, Text.points,
    String.toList_ofList]

theorem ofText_append (s t : String) : ofText (s ++ t) = ofText s ++ ofText t := by
  show Phrase.mk _ = Phrase.mk _
  simp [ofText, Text.points]

end Phrase
end Acceptance

import Mathlib.Data.List.Forall2
import Mathlib.Data.List.Nodup
import Mathlib.Data.List.TakeWhile
import Acceptance.Proofs.TextLines
import Acceptance.Registry.Reader
/-!
Matching is exact. A pattern is a text, then holes with a text behind each, in one way only. A
statement fits it just where each hole can be filled, and of all fillings the one is found in which
the first hole takes the least, then the second, and so on.
-/
namespace Acceptance.Registry

/-- What a hole can be filled with: between quotes anything without a quote, elsewhere at least one
character and no line feed. -/
def MayTake : Bool → List Char → Prop
  | true, cap => '"' ∉ cap
  | false, cap => cap ≠ [] ∧ '\n' ∉ cap

/-- The pieces make up a text when their holes are filled with the captures. -/
inductive Splits : List Piece → List Char → List (List Char) → Prop
  | nil : Splits [] [] []
  | char {c : Char} {ps : List Piece} {cs : List Char} {caps : List (List Char)}
    (h : Splits ps cs caps) : Splits (.char c :: ps) (c :: cs) caps
  | hole {name : String} {quoted : Bool} {ps : List Piece} {cap cs : List Char}
    {caps : List (List Char)} (hcap : MayTake quoted cap) (h : Splits ps cs caps) :
    Splits (.hole name quoted :: ps) (cap ++ cs) (cap :: caps)

/-- Behind each hole between quotes stands the closing one. -/
def QuotesClosed : List Piece → Prop
  | [] => True
  | .char _ :: ps => QuotesClosed ps
  | .hole _ quoted :: ps => (quoted = true → ps.head? = some (.char '"')) ∧ QuotesClosed ps

/-- The lengths of captures in their lexical order: the first that differs is the smaller one. -/
def NoLonger (xs ys : List (List Char)) : Prop :=
  xs.map List.length = ys.map List.length ∨
    List.Lex (· < ·) (xs.map List.length) (ys.map List.length)

theorem NoLonger.cons {xs ys : List (List Char)} (h : NoLonger xs ys) (cap : List Char) :
    NoLonger (cap :: xs) (cap :: ys) :=
  h.imp (congrArg (cap.length :: ·)) .cons

section Search

variable {rest : List Char → Option (List (List Char))} {ps : List Piece} {cs ds cap : List Char}
  {caps caps' : List (List Char)}

theorem exists_of_shortest (h : shortest rest cs = some caps) : ∃ cap caps' ds, caps = cap :: caps' ∧
    cs = cap ++ ds ∧ MayTake false cap ∧ rest ds = some caps' := by
  induction cs generalizing caps with
  | nil => cases h
  | cons c cs ih =>
    rw [shortest] at h
    split at h
    · cases h
    · next hc =>
      split at h
      · next caps' hrest =>
        cases h
        exact ⟨[c], caps', cs, rfl, rfl, ⟨by simp, by simpa using Ne.symm hc⟩, hrest⟩
      · obtain ⟨found, hfound, rfl⟩ := Option.map_eq_some_iff.1 h
        obtain ⟨cap, caps', ds, rfl, rfl, ⟨-, hbreak⟩, hrest⟩ := ih hfound
        exact ⟨c :: cap, caps', ds, rfl, rfl, ⟨by simp, by simpa [Ne.symm hc] using hbreak⟩, hrest⟩

/-- Where some capture leaves a rest that can be matched, one is found, and it is no longer. -/
theorem shortest_of_rest (hcap : MayTake false cap) (hrest : rest cs = some caps) :
    ∃ cap' caps', shortest rest (cap ++ cs) = some (cap' :: caps') ∧
      (cap'.length < cap.length ∨ cap' = cap ∧ caps' = caps) := by
  obtain ⟨hne, hbreak⟩ := hcap
  induction cap with
  | nil => exact absurd rfl hne
  | cons c cap ih =>
    obtain ⟨hc, hbreak⟩ := not_or.1 (mt List.mem_cons.2 hbreak)
    rw [List.cons_append, shortest, if_neg (Ne.symm hc)]
    cases hfirst : rest (cap ++ cs) with
    | some found =>
      refine ⟨[c], found, rfl, ?_⟩
      cases cap with
      | nil =>
        rw [List.nil_append, hrest] at hfirst
        exact .inr ⟨rfl, (Option.some.inj hfirst).symm⟩
      | cons d cap => exact .inl (by simp)
    | none =>
      have hne' : cap ≠ [] := by
        rintro rfl
        rw [List.nil_append, hrest] at hfirst
        cases hfirst
      obtain ⟨cap', caps', hfound, hless⟩ := ih hne' hbreak
      refine ⟨c :: cap', caps', by rw [hfound]; rfl, ?_⟩
      rcases hless with hless | ⟨rfl, rfl⟩
      · exact .inl (by simpa using hless)
      · exact .inr ⟨rfl, rfl⟩

theorem splits_of_fit (h : fit ps cs = some caps) : Splits ps cs caps := by
  induction ps generalizing cs caps with
  | nil =>
    cases cs with
    | nil =>
      cases h
      exact .nil
    | cons c cs => cases h
  | cons p ps ih =>
    cases p with
    | char c =>
      cases cs with
      | nil => cases h
      | cons d cs =>
        rw [fit] at h
        split at h
        · next hc =>
          subst hc
          exact .char (ih h)
        · cases h
    | hole name quoted =>
      cases quoted with
      | true =>
        obtain ⟨caps', hfit, rfl⟩ := Option.map_eq_some_iff.1 h
        have hcap : MayTake true (cs.takeWhile (· ≠ '"')) := by
          intro hquote
          simpa using List.mem_takeWhile_imp hquote
        have hsplit := @Splits.hole name _ _ _ _ _ hcap (ih hfit)
        rwa [List.takeWhile_append_dropWhile] at hsplit
      | false =>
        obtain ⟨cap, caps', ds, rfl, rfl, hcap, hrest⟩ := exists_of_shortest h
        exact .hole hcap (ih hrest)

/-- Where the pieces make up a text somehow, they are fitted, and no hole before the first that
differs takes more. -/
theorem fit_of_splits (hclosed : QuotesClosed ps) (h : Splits ps cs caps) :
    ∃ found, fit ps cs = some found ∧ NoLonger found caps := by
  induction h with
  | nil => exact ⟨[], rfl, .inl rfl⟩
  | char h ih =>
    obtain ⟨found, hfit, hle⟩ := ih hclosed
    exact ⟨found, by rw [fit, if_pos rfl, hfit], hle⟩
  | @hole name quoted ps cap cs caps hcap h ih =>
    obtain ⟨hquote, hclosed⟩ := hclosed
    obtain ⟨found, hfit, hle⟩ := ih hclosed
    cases quoted with
    | true =>
      -- the closing quote is the first one, so there is no choice
      obtain ⟨ps, rfl⟩ := List.head?_eq_some_iff.1 (hquote rfl)
      cases h with
      | @char _ _ cs _ h =>
        have hstop : ∀ d ∈ cap, decide (d ≠ '"') = true := by
          intro d hd
          exact decide_eq_true fun he => hcap (he ▸ hd)
        refine ⟨cap :: found, ?_, hle.cons cap⟩
        rw [fit, List.takeWhile_append_of_pos hstop, List.dropWhile_append_of_pos hstop]
        simp [hfit]
    | false =>
      obtain ⟨cap', caps', hfound, hless⟩ := shortest_of_rest hcap hfit
      refine ⟨cap' :: caps', hfound, ?_⟩
      rcases hless with hless | ⟨rfl, rfl⟩
      · exact .inr (.rel hless)
      · exact hle.cons cap'

end Search

/-! Patterns taken apart. -/

/-- A text, and holes with a text behind each. -/
structure Frame where
  start : List Char
  holes : List (String × List Char)

namespace Frame

def names (f : Frame) : List String := f.holes.map (·.1)

def literals (f : Frame) : List (List Char) := f.holes.map (·.2)

/-- How a hole is written. -/
def holeText (name : List Char) : List Char := '\x7b' :: (name ++ ['\x7d'])

def text (f : Frame) : List Char := f.start ++ f.holes.flatMap fun h => holeText h.1.toList ++ h.2

/-- The holes have names, and the texts between them have no holes in them. -/
structure WellFormed (f : Frame) : Prop where
  names : ∀ name ∈ f.names, isName name.toList = true
  plain : ∀ l ∈ f.start :: f.literals, ∀ name, isName name = true → ¬holeText name <:+: l

/-- Does a hole stand directly between quotes? -/
def betweenQuotes (before behind : List Char) : Bool :=
  before.getLast? == some '"' && behind.head? == some '"'

/-- Which of the holes stand directly between quotes. -/
def quoted (f : Frame) : List Bool :=
  List.zipWith betweenQuotes (f.start :: f.literals) f.literals

/-- The text is that of the frame with its holes filled. -/
structure Filled (f : Frame) (cs : List Char) (caps : List (List Char)) : Prop where
  text : cs = f.start ++ (List.zipWith (· ++ ·) caps f.literals).flatten
  allowed : List.Forall₂ MayTake f.quoted caps

/-- The pieces of holes behind a text. -/
def holePieces : List Char → List (String × List Char) → List Piece
  | _, [] => []
  | before, (name, l) :: holes =>
    .hole name (betweenQuotes before l) :: (l.map .char ++ holePieces l holes)

def pieces (f : Frame) : List Piece := f.start.map .char ++ holePieces f.start f.holes

end Frame

section Reading

variable {name cs rest l : List Char}

theorem takeHole?_of_isName (h : isName name = true) (rest : List Char) :
    takeHole? (name ++ '\x7d' :: rest) = some (name, rest) := by
  cases name with
  | nil => cases h
  | cons c name =>
    obtain ⟨hstart, hname⟩ := Bool.and_eq_true_iff.1 h
    have hc : Spec.isNameChar c = true := by
      simp only [isNameStart, Spec.isNameChar, Bool.or_eq_true] at hstart ⊢
      exact hstart.imp_left .inl
    have hall : ∀ d ∈ c :: name, Spec.isNameChar d = true :=
      List.forall_mem_cons.2 ⟨hc, List.all_eq_true.1 hname⟩
    have hbrace : ∀ d ∈ ('\x7d' :: rest).head?, Spec.isNameChar d = false := by
      simp [Spec.isNameChar, Spec.isLetter]
    obtain ⟨htake, hdrop⟩ := Text.span_append hall hbrace
    rw [takeHole?, htake, hdrop]
    simp [hstart]

theorem of_takeHole? (h : takeHole? cs = some (name, rest)) :
    isName name = true ∧ cs = name ++ '\x7d' :: rest := by
  unfold takeHole? at h
  split at h
  · next c name' d rest' htake hdrop =>
    split at h
    · next hends =>
      cases h
      obtain ⟨hstart, hd⟩ := Bool.and_eq_true_iff.1 hends
      have hall : ∀ e ∈ c :: name', Spec.isNameChar e = true := by
        intro e he
        rw [← htake] at he
        exact List.mem_takeWhile_imp he
      refine ⟨Bool.and_eq_true_iff.2 ⟨hstart, List.all_eq_true.2 fun e he => hall e (.tail _ he)⟩, ?_⟩
      rw [← htake, ← eq_of_beq hd, ← hdrop, List.takeWhile_append_dropWhile]
    · cases h
  · cases h

theorem brace_not_mem (h : isName name = true) : '\x7b' ∉ name ++ ['\x7d'] := by
  have hbrace : isNameStart '\x7b' = false ∧ Spec.isNameChar '\x7b' = false := by decide
  cases name with
  | nil => cases h
  | cons c name =>
    obtain ⟨hstart, hname⟩ := Bool.and_eq_true_iff.1 h
    rw [List.mem_append, List.mem_cons, List.mem_singleton]
    rintro ((rfl | hmem) | hmem)
    · rw [hbrace.1] at hstart
      cases hstart
    · have hall := List.all_eq_true.1 hname _ hmem
      rw [hbrace.2] at hall
      cases hall
    · cases hmem

/-- A hole that begins in a text ends in it, if the text goes on with another hole or not at all. -/
theorem holeText_prefix (hname : isName name = true) (hrest : ∀ c ∈ rest.head?, c = '\x7b')
    {rest' : List Char} (h : l ++ rest = name ++ '\x7d' :: rest') : name ++ ['\x7d'] <+: l := by
  have hsame : l ++ rest = (name ++ ['\x7d']) ++ rest' := by simpa using h
  have hl : l <+: l ++ rest := List.prefix_append ..
  have hn : name ++ ['\x7d'] <+: l ++ rest := hsame ▸ List.prefix_append ..
  rcases List.prefix_or_prefix_of_prefix hn hl with hin | ⟨m, hm⟩
  · exact hin
  · rw [← hm, List.append_assoc, List.append_cancel_left_eq] at hsame
    cases m with
    | nil => exact ⟨[], by rw [List.append_nil, ← hm, List.append_nil]⟩
    | cons d m =>
      have hd : d = '\x7b' := hrest d (by rw [hsame]; rfl)
      have hmem : d ∈ name ++ ['\x7d'] := by rw [← hm]; simp
      exact absurd (hd ▸ hmem) (brace_not_mem hname)

/-- A text without holes is read character by character up to the next hole or the end. -/
theorem piecesFrom_plain (hplain : ∀ name, isName name = true → ¬Frame.holeText name <:+: l)
    (hrest : ∀ c ∈ rest.head?, c = '\x7b') (q : Bool) :
    piecesFrom q (l ++ rest) = l.map .char ++
      piecesFrom (if l = [] then q else l.getLast? == some '"') rest := by
  induction l generalizing q with
  | nil => rfl
  | cons c l ih =>
    have hlater := ih fun name hname hin => hplain name hname (List.infix_cons hin)
    have hlast : (if l = [] then c == '"' else l.getLast? == some '"') =
        ((c :: l).getLast? == some '"') := by
      cases l <;> simp [List.getLast?_cons]
    have hchar : .char c :: piecesFrom (c == '"') (l ++ rest) = (c :: l).map Piece.char ++
        piecesFrom (if c :: l = [] then q else (c :: l).getLast? == some '"') rest := by
      rw [hlater, hlast]
      rfl
    rw [List.cons_append, piecesFrom]
    split
    · next hc =>
      subst hc
      split
      · next name rest' htake =>
        obtain ⟨hname, heq⟩ := of_takeHole? htake
        obtain ⟨m, hm⟩ := holeText_prefix hname hrest heq
        exact absurd ⟨[], m, by simp [Frame.holeText, ← hm]⟩ (hplain name hname)
      · exact hchar
    · exact hchar

theorem piecesFrom_hole (h : isName name = true) (q : Bool) (rest : List Char) :
    piecesFrom q (Frame.holeText name ++ rest) =
      .hole (String.ofList name) (q && rest.head? == some '"') :: piecesFrom false rest := by
  have hquote : startsWithQuote rest = (rest.head? == some '"') := by
    unfold startsWithQuote
    split
    · rfl
    · next hno =>
      cases rest with
      | nil => rfl
      | cons c rest =>
        have hc : c ≠ '"' := fun he => hno rest (by rw [he])
        simp [hc]
  have htake := takeHole?_of_isName h rest
  rw [Frame.holeText, List.cons_append, List.append_assoc, List.singleton_append, piecesFrom, if_pos rfl]
  split
  · next name' rest' htake' =>
    rw [htake, Option.some.injEq, Prod.mk.injEq] at htake'
    obtain ⟨rfl, rfl⟩ := htake'
    rw [hquote]
  · next htake' =>
    rw [htake] at htake'
    cases htake'

end Reading

namespace Frame

variable {f g : Frame}

/-- A frame that is well formed is read from its text. -/
theorem pieces_text (h : f.WellFormed) : piecesFrom false f.text = f.pieces := by
  obtain ⟨start, holes⟩ := f
  obtain ⟨hnames, hplain⟩ := h
  induction holes generalizing start with
  | nil =>
    have hstart : piecesFrom false (start ++ []) = _ :=
      piecesFrom_plain (hplain start List.mem_cons_self) (by simp) false
    simpa [text, pieces, holePieces, piecesFrom] using hstart
  | cons hole holes ih =>
    obtain ⟨name, l⟩ := hole
    obtain ⟨hname, hnames⟩ := List.forall_mem_cons.1 hnames
    obtain ⟨hstart, hplain⟩ := List.forall_mem_cons.1 hplain
    have hlater : piecesFrom false (text ⟨l, holes⟩) = pieces ⟨l, holes⟩ := ih l hnames hplain
    have hend : (if start = [] then false else start.getLast? == some '"') =
        (start.getLast? == some '"') := by
      cases start <;> simp
    have hhead : ((l ++ holes.flatMap fun h => holeText h.1.toList ++ h.2).head? == some '"') =
        (l.head? == some '"') := by
      cases l with
      | cons c l => rfl
      | nil =>
        cases holes <;> simp [holeText]
    have htext : text ⟨start, (name, l) :: holes⟩ =
        start ++ (holeText name.toList ++ text ⟨l, holes⟩) := by
      simp [text]
    rw [htext, piecesFrom_plain hstart (by simp [holeText]), piecesFrom_hole hname, hlater, hend, text,
      hhead, String.ofList_toList]
    rfl

/-- The frame of some pieces. -/
def ofPieces : List Piece → Frame
  | [] => ⟨[], []⟩
  | .char c :: ps => { ofPieces ps with start := c :: (ofPieces ps).start }
  | .hole name _ :: ps => ⟨[], (name, (ofPieces ps).start) :: (ofPieces ps).holes⟩

theorem ofPieces_append (l : List Char) (ps : List Piece) : ofPieces (l.map .char ++ ps) =
    { ofPieces ps with start := l ++ (ofPieces ps).start } := by
  induction l with
  | nil => rfl
  | cons c l ih => rw [List.map_cons, List.cons_append, ofPieces, ih, List.cons_append]

theorem ofPieces_holePieces (before : List Char) (holes : List (String × List Char)) :
    ofPieces (holePieces before holes) = ⟨[], holes⟩ := by
  induction holes generalizing before with
  | nil => rfl
  | cons hole holes ih =>
    obtain ⟨name, l⟩ := hole
    rw [holePieces, ofPieces, ofPieces_append, ih]
    simp

theorem ofPieces_pieces (f : Frame) : ofPieces f.pieces = f := by
  rw [pieces, ofPieces_append, ofPieces_holePieces]
  simp

theorem text_ofPieces (q : Bool) (cs : List Char) : (ofPieces (piecesFrom q cs)).text = cs := by
  fun_induction piecesFrom q cs with
  | case1 => rfl
  | case2 q cs name rest htake ih =>
    obtain ⟨-, rfl⟩ := of_takeHole? htake
    simp only [ofPieces, text, List.flatMap_cons, List.nil_append, String.toList_ofList] at ih ⊢
    rw [List.append_assoc, ih]
    simp [holeText]
  | case3 q cs htake ih => exact congrArg ('\x7b' :: ·) ih
  | case4 q c cs hc ih => exact congrArg (c :: ·) ih

theorem start_prefix (q : Bool) (cs : List Char) : (ofPieces (piecesFrom q cs)).start <+: cs := by
  conv => rhs; rw [← text_ofPieces q cs]
  exact List.prefix_append ..

/-- What is read from a text is well formed: a hole in a text between holes would have been read as
one. -/
theorem wellFormed_ofPieces (q : Bool) (cs : List Char) : (ofPieces (piecesFrom q cs)).WellFormed := by
  fun_induction piecesFrom q cs with
  | case1 => exact ⟨by simp [names, ofPieces], by simp [literals, ofPieces, holeText]⟩
  | case2 q cs name rest htake ih =>
    obtain ⟨hname, -⟩ := of_takeHole? htake
    refine ⟨List.forall_mem_cons.2 ⟨by rwa [String.toList_ofList], ih.names⟩,
      List.forall_mem_cons.2 ⟨by simp [ofPieces, holeText], ih.plain⟩⟩
  | case3 q cs htake ih =>
    obtain ⟨hstart, hplain⟩ := List.forall_mem_cons.1 ih.plain
    refine ⟨ih.names, List.forall_mem_cons.2 ⟨fun name hname hin => ?_, hplain⟩⟩
    rcases List.infix_cons_iff.1 hin with hpre | hin
    · obtain ⟨m, hm⟩ := (List.cons_prefix_cons.1 hpre).2
      obtain ⟨k, hk⟩ := start_prefix false cs
      have htake' := takeHole?_of_isName hname (m ++ k)
      rw [← hk, ← hm] at htake
      simp [htake'] at htake
    · exact hstart name hname hin
  | case4 q c cs hc ih =>
    obtain ⟨hstart, hplain⟩ := List.forall_mem_cons.1 ih.plain
    refine ⟨ih.names, List.forall_mem_cons.2 ⟨fun name hname hin => ?_, hplain⟩⟩
    rcases List.infix_cons_iff.1 hin with hpre | hin
    · exact absurd (List.cons_prefix_cons.1 hpre).1.symm hc
    · exact hstart name hname hin

/-- A text is that of one frame. -/
theorem eq_ofPieces_iff (cs : List Char) :
    f = ofPieces (piecesFrom false cs) ↔ f.WellFormed ∧ f.text = cs := by
  constructor
  · rintro rfl
    exact ⟨wellFormed_ofPieces false cs, text_ofPieces false cs⟩
  · rintro ⟨hf, rfl⟩
    rw [pieces_text hf, ofPieces_pieces]

/-! Filling the holes. -/

theorem quotesClosed_append (l : List Char) {ps : List Piece} (h : QuotesClosed ps) :
    QuotesClosed (l.map .char ++ ps) := by
  induction l with
  | nil => exact h
  | cons c l ih => exact ih

theorem quotesClosed_holePieces (before : List Char) (holes : List (String × List Char)) :
    QuotesClosed (holePieces before holes) := by
  induction holes generalizing before with
  | nil => trivial
  | cons hole holes ih =>
    obtain ⟨name, l⟩ := hole
    refine ⟨fun hquoted => ?_, quotesClosed_append l (ih l)⟩
    obtain ⟨-, hhead⟩ := Bool.and_eq_true_iff.1 hquoted
    obtain ⟨m, rfl⟩ := List.head?_eq_some_iff.1 (eq_of_beq hhead)
    rfl

theorem splits_append {l cs : List Char} {ps : List Piece} {caps : List (List Char)} :
    Splits (l.map .char ++ ps) cs caps ↔ ∃ ds, cs = l ++ ds ∧ Splits ps ds caps := by
  induction l generalizing cs with
  | nil => simp
  | cons c l ih =>
    constructor
    · intro h
      cases h with
      | char h =>
        obtain ⟨ds, rfl, hds⟩ := ih.1 h
        exact ⟨ds, rfl, hds⟩
    · rintro ⟨ds, rfl, hds⟩
      exact .char (ih.2 ⟨ds, rfl, hds⟩)

theorem splits_holePieces {before cs : List Char} {holes : List (String × List Char)}
    {caps : List (List Char)} : Splits (holePieces before holes) cs caps ↔
      cs = (List.zipWith (· ++ ·) caps (holes.map (·.2))).flatten ∧
        List.Forall₂ MayTake
          (List.zipWith betweenQuotes (before :: holes.map (·.2)) (holes.map (·.2))) caps := by
  induction holes generalizing before cs caps with
  | nil =>
    constructor
    · intro h
      cases h
      exact ⟨rfl, .nil⟩
    · rintro ⟨rfl, h⟩
      cases h
      exact .nil
  | cons hole holes ih =>
    obtain ⟨name, l⟩ := hole
    constructor
    · intro h
      cases h with
      | hole hcap h =>
        obtain ⟨ds, rfl, hds⟩ := splits_append.1 h
        obtain ⟨rfl, hallowed⟩ := ih.1 hds
        exact ⟨by simp, .cons hcap hallowed⟩
    · rintro ⟨rfl, h⟩
      cases h with
      | @cons _ cap _ caps hcap hallowed =>
        have hlater := ih.2 ⟨rfl, hallowed⟩
        have hrest : Splits (l.map .char ++ holePieces l holes) _ caps :=
          splits_append.2 ⟨_, rfl, hlater⟩
        have hwhole := @Splits.hole name _ _ _ _ _ hcap hrest
        simpa [holePieces] using hwhole

theorem splits_pieces {cs : List Char} {caps : List (List Char)} :
    Splits f.pieces cs caps ↔ f.Filled cs caps := by
  rw [pieces, splits_append]
  constructor
  · rintro ⟨ds, rfl, hds⟩
    obtain ⟨rfl, hallowed⟩ := splits_holePieces.1 hds
    exact ⟨rfl, hallowed⟩
  · rintro ⟨rfl, hallowed⟩
    exact ⟨_, rfl, splits_holePieces.2 ⟨rfl, hallowed⟩⟩

theorem holeNames_pieces (f : Frame) : holeNames f.pieces = f.names := by
  have hholes : ∀ before holes, holeNames (holePieces before holes) = holes.map (·.1) := by
    intro before holes
    induction holes generalizing before with
    | nil => rfl
    | cons hole holes ih =>
      obtain ⟨name, l⟩ := hole
      have hl : holeNames (l.map .char ++ holePieces l holes) = holeNames (holePieces l holes) := by
        simp [holeNames, List.filterMap_map, Function.comp_def, Piece.name?]
      exact congrArg (name :: ·) (hl.trans (ih l))
  have hstart : holeNames f.pieces = holeNames (holePieces f.start f.holes) := by
    simp [pieces, holeNames, List.filterMap_map, Function.comp_def, Piece.name?]
  exact hstart.trans (hholes _ _)

end Frame

theorem repeated_of_nodup {names : List String} (h : names.Nodup) : repeated names = [] := by
  have hnone : names.filter (fun n => decide (names.count n > 1)) = [] := by
    refine List.filter_eq_nil_iff.2 fun n _ hmore => ?_
    have hcount := List.nodup_iff_count_le_one.1 h n
    have hmore := of_decide_eq_true hmore
    omega
  rw [repeated, hnone]
  simp [sortTexts]

/-- Each pattern has one frame. A text is matched just where it is that of the frame with the holes
filled, and what the holes capture fills them, under their names. No other filling has less in the
first hole that differs in length. Where the names are distinct, matching is not refused. -/
theorem captures?_exact (pattern : String) : ∃ f : Frame,
    (∀ g : Frame, g = f ↔ g.WellFormed ∧ g.text = pattern.toList) ∧
    (f.names.Nodup → ∀ texts, matchAll pattern texts = .ok (texts.map (captures? pattern))) ∧
    ∀ text : String,
      ((captures? pattern text).isSome = true ↔ ∃ caps, f.Filled text.toList caps) ∧
      ∀ found, captures? pattern text = some found →
        found.map (·.1) = f.names ∧ f.Filled text.toList (found.map (·.2.toList)) ∧
          ∀ caps, f.Filled text.toList caps → NoLonger (found.map (·.2.toList)) caps := by
  obtain ⟨f, hf⟩ : ∃ f, f = Frame.ofPieces (piecesFrom false pattern.toList) := ⟨_, rfl⟩
  obtain ⟨hwell, htext⟩ := (Frame.eq_ofPieces_iff pattern.toList).1 hf
  have hpieces : pieces pattern = f.pieces := by rw [pieces, ← htext, Frame.pieces_text hwell]
  have hclosed : QuotesClosed f.pieces :=
    Frame.quotesClosed_append f.start (Frame.quotesClosed_holePieces f.start f.holes)
  have hcaptures (text : String) : captures? pattern text =
      (fit f.pieces text.toList).map fun caps => f.names.zip (caps.map String.ofList) := by
    rw [captures?, hpieces, Frame.holeNames_pieces]
  refine ⟨f, fun g => hf ▸ Frame.eq_ofPieces_iff pattern.toList, fun hnodup texts => ?_,
    fun text => ⟨⟨fun hsome => ?_, ?_⟩, fun found hfound => ?_⟩⟩
  · rw [matchAll, hpieces, Frame.holeNames_pieces, repeated_of_nodup hnodup]
    rfl
  · rw [hcaptures, Option.isSome_map] at hsome
    obtain ⟨caps, hfit⟩ := Option.isSome_iff_exists.1 hsome
    exact ⟨caps, Frame.splits_pieces.1 (splits_of_fit hfit)⟩
  · rintro ⟨caps, hfilled⟩
    obtain ⟨found, hfit, -⟩ := fit_of_splits hclosed (Frame.splits_pieces.2 hfilled)
    rw [hcaptures, hfit]
    rfl
  · rw [hcaptures] at hfound
    obtain ⟨caps, hfit, rfl⟩ := Option.map_eq_some_iff.1 hfound
    have hfilled := Frame.splits_pieces.1 (splits_of_fit hfit)
    have hlength : f.names.length = (caps.map String.ofList).length := by
      have hboth := hfilled.allowed.length_eq
      simp only [Frame.quoted, Frame.literals, List.length_zipWith, List.length_cons,
        List.length_map] at hboth
      simp only [Frame.names, List.length_map]
      omega
    have hsecond : (f.names.zip (caps.map String.ofList)).map (·.2.toList) = caps := by
      have hzip := List.map_snd_zip (Nat.le_of_eq hlength.symm)
      have hback := congrArg (List.map String.toList) hzip
      simpa [List.map_map, Function.comp_def] using hback
    rw [hsecond]
    refine ⟨List.map_fst_zip (Nat.le_of_eq hlength), hfilled, fun others hothers => ?_⟩
    obtain ⟨found, hfit', hless⟩ := fit_of_splits hclosed (Frame.splits_pieces.2 hothers)
    rwa [Option.some.inj (hfit.symm.trans hfit')]

example : captures? "\x7ba\x7d of \"\x7bb\x7d\", \x7bc\x7d\x7bd\x7d" "1 of 2 of \"x of y\", 34" =
    some [("a", "1 of 2"), ("b", "x of y"), ("c", "3"), ("d", "4")] := by
  decide +kernel

end Acceptance.Registry

import PbsCow.Lib.Begins
import PbsCow.Lib.Bytes

namespace PbsCow.Grep
open scoped Computability
set_option autoImplicit true

/-- The characters `*`, `.`, `$`, `^` and `\n`. -/
def star : Byte := 42
def dot : Byte := 46
def dollar : Byte := 36
def caret : Byte := 94
def newline : Byte := 10

/-- A string is the list of its characters before the NUL. `here` is `matchhere` of the rest of the pattern. -/
def matchstar (here : List Byte → Bool) (c : Byte) : List Byte → Bool
  | [] => here []
  | t :: text => here (t :: text) || (t = c || c = dot) && matchstar here c text

/-- A character that is to be there. -/
def matchchar (here : List Byte → Bool) (c : Byte) : List Byte → Bool
  | [] => false
  | t :: text => (c = dot || c = t) && here text

def matchhere : List Byte → List Byte → Bool
  | [], _ => true
  | [c], text => if c = dollar then text = [] else matchchar (matchhere []) c text
  | c :: d :: re, text =>
    if d = star then matchstar (matchhere re) c text else matchchar (matchhere (d :: re)) c text

/-- The loop of `match`. -/
def matchLoop (re : List Byte) : List Byte → Bool
  | [] => matchhere re []
  | t :: text => matchhere re (t :: text) || matchLoop re text

def «match» : List Byte → List Byte → Bool
  | [], text => matchLoop [] text
  | c :: re, text => if c = caret then matchhere re text else matchLoop (c :: re) text

/-- The size of `buf`. -/
def bufSize : Nat := 1024

/-- The index that `strchr` finds. -/
def strchr : List Byte → Byte → Option Nat
  | [], _ => none
  | b :: p, c => if b = 0 then none else if b = c then some 0 else (strchr p c).map (· + 1)

/-- The inner loop of `grep`: what it writes, and what it leaves in the buffer. -/
def scan (pattern : List Byte) : Nat → List Byte → List Byte × List Byte
  | 0, p => ([], p)
  | fuel + 1, p =>
    match strchr p newline with
    | none => ([], p)
    | some q =>
      let out := if «match» pattern (p.take q) then p.take (q + 1) else []
      let rest := scan pattern fuel (p.drop (q + 1))
      (out ++ rest.1, rest.2)

/-- The outer loop. The call of `read` on turn `i` returns `amount i` bytes, or as many as it is asked for, or all that
there are. -/
def grepLoop (pattern : List Byte) (amount : Nat → Nat) : Nat → Nat → List Byte → List Byte → Option (List Byte)
  | 0, _, _, _ => none
  | fuel + 1, i, buf, input =>
    let got := input.take (min (bufSize - buf.length - 1) (amount i))
    if got.length = 0 then some []
    else
      let r := scan pattern (buf.length + got.length) (buf ++ got)
      (grepLoop pattern amount fuel (i + 1) r.2 (input.drop got.length)).map (r.1 ++ ·)

def grep (pattern : List Byte) (amount : Nat → Nat) (input : List Byte) : Option (List Byte) :=
  grepLoop pattern amount (input.length + 1) 0 [] input

/-- A pattern as its items, some of which are starred, and whether it has to match up to the end. -/
structure Pattern where
  items : List (Byte × Bool)
  atEnd : Bool

def Pattern.cons (c : Byte) (starred : Bool) (r : Pattern) : Pattern := { r with items := (c, starred) :: r.items }

def parse : List Byte → Pattern
  | [] => ⟨[], false⟩
  | [c] => if c = dollar then ⟨[], true⟩ else ⟨[(c, false)], false⟩
  | c :: d :: re => if d = star then (parse re).cons c true else (parse (d :: re)).cons c false

/-- A character stands for itself, and `.` for any. -/
def stands (c : Byte) (t : Byte) : Prop := c = dot ∨ c = t

def itemLang (x : Byte × Bool) : Language Byte := if x.2 then (Begins.letter (stands x.1))∗ else Begins.letter (stands x.1)

def Pattern.lang (r : Pattern) : Language Byte := (r.items.map itemLang).prod

/-- What may be left of the text. -/
def Pattern.stops (r : Pattern) (t : List Byte) : Prop := r.atEnd = true → t = []

theorem matchstar_iff {K : List Byte → Prop} (h : ∀ t, here t = true ↔ K t) (c : Byte) (text : List Byte) :
    matchstar here c text = true ↔ Begins (Begins.letter (stands c))∗ K text := by
  induction text with
  | nil =>
    rw [matchstar, Begins.kstar_nil]
    exact h []
  | cons t text ih =>
    rw [matchstar, Begins.kstar_cons, Bool.or_eq_true, Bool.and_eq_true, h, ih, Bool.or_eq_true, decide_eq_true_iff,
      decide_eq_true_iff, stands, or_comm (a := t = c), eq_comm (a := t)]

theorem matchchar_iff {K : List Byte → Prop} (h : ∀ t, here t = true ↔ K t) (c : Byte) (text : List Byte) :
    matchchar here c text = true ↔ Begins (Begins.letter (stands c)) K text := by
  cases text with
  | nil => exact iff_of_false Bool.false_ne_true (Begins.letter_nil _)
  | cons t text =>
    rw [matchchar, Begins.letter_cons, Bool.and_eq_true, h, Bool.or_eq_true, decide_eq_true_iff, decide_eq_true_iff, stands]

theorem begins_cons (c : Byte) (starred : Bool) (r : Pattern) (t : List Byte) :
    Begins (r.cons c starred).lang (r.cons c starred).stops t ↔ Begins (itemLang (c, starred)) (Begins r.lang r.stops) t := by
  rw [Pattern.lang, Pattern.cons, List.map_cons, List.prod_cons, Begins.mul]
  rfl

/-- `matchhere` finds a word of the pattern at the beginning of the text. -/
theorem matchhere_iff (re text : List Byte) : matchhere re text = true ↔ Begins (parse re).lang (parse re).stops text := by
  induction re using parse.induct generalizing text with
  | case1 =>
    rw [matchhere, parse, Pattern.lang, List.map_nil, List.prod_nil, Begins.one]
    exact iff_of_true rfl fun h => by cases h
  | case2 =>
    rw [matchhere, parse, if_pos rfl, if_pos rfl, Pattern.lang, List.map_nil, List.prod_nil, Begins.one, decide_eq_true_iff]
    exact ⟨fun h _ => h, fun h => h rfl⟩
  | case3 c hc =>
    rw [matchhere, parse, if_neg hc, if_neg hc, Pattern.lang, List.map_cons, List.map_nil, List.prod_cons, List.prod_nil, mul_one]
    apply matchchar_iff
    intro t
    exact iff_of_true rfl fun h => by cases h
  | case4 c re ih =>
    rw [matchhere, parse, if_pos rfl, if_pos rfl, begins_cons]
    exact matchstar_iff ih c text
  | case5 c d re hd ih =>
    rw [matchhere, parse, if_neg hd, if_neg hd, begins_cons]
    exact matchchar_iff ih c text

theorem matchLoop_iff (re text : List Byte) : matchLoop re text = true ↔ ∃ a b, a ++ b = text ∧ matchhere re b = true := by
  induction text with
  | nil =>
    rw [matchLoop]
    constructor
    · intro h
      exact ⟨[], [], rfl, h⟩
    · intro h
      obtain ⟨a, b, he, h⟩ := h
      rw [(List.append_eq_nil_iff.1 he).2] at h
      exact h
  | cons t text ih =>
    rw [matchLoop, Bool.or_eq_true, ih]
    constructor
    · intro h
      rcases h with h | ⟨a, b, rfl, h⟩
      · exact ⟨[], t :: text, rfl, h⟩
      · exact ⟨t :: a, b, rfl, h⟩
    · intro h
      obtain ⟨a, b, he, h⟩ := h
      cases a with
      | nil =>
        rw [List.nil_append] at he
        rw [he] at h
        exact .inl h
      | cons s a =>
        obtain ⟨rfl, rfl⟩ := List.cons.inj he
        exact .inr ⟨a, b, rfl, h⟩

/-- The pattern without its `^`. -/
def unanchored (re : List Byte) : List Byte := if re.head? = some caret then re.tail else re

/-- `match` finds a word of the pattern anywhere in the text, or at its beginning for a pattern that starts with `^`;
with a `$` at the end of the pattern, the word is the text's last. -/
theorem match_iff (re text : List Byte) :
    «match» re text = true ↔ ∃ a w b, a ++ (w ++ b) = text ∧ w ∈ (parse (unanchored re)).lang ∧
      ((parse (unanchored re)).atEnd = true → b = []) ∧ (re.head? = some caret → a = []) := by
  have hloop : re.head? ≠ some caret → (matchLoop re text = true ↔ ∃ a w b, a ++ (w ++ b) = text ∧
      w ∈ (parse re).lang ∧ ((parse re).atEnd = true → b = []) ∧ (re.head? = some caret → a = [])) := by
    intro hne
    rw [matchLoop_iff]
    constructor
    · intro h
      obtain ⟨a, t, rfl, h⟩ := h
      obtain ⟨w, hw, b, rfl, hb⟩ := (matchhere_iff re t).1 h
      exact ⟨a, w, b, rfl, hw, hb, fun h => absurd h hne⟩
    · intro h
      obtain ⟨a, w, b, rfl, hw, hb, -⟩ := h
      exact ⟨a, w ++ b, rfl, (matchhere_iff re _).2 ⟨w, hw, b, rfl, hb⟩⟩
  cases re with
  | nil => exact hloop nofun
  | cons c re =>
    by_cases hc : c = caret
    · subst hc
      rw [«match», if_pos rfl, matchhere_iff, unanchored, if_pos List.head?_cons, List.tail_cons]
      constructor
      · intro h
        obtain ⟨w, hw, b, rfl, hb⟩ := h
        exact ⟨[], w, b, rfl, hw, hb, fun _ => rfl⟩
      · intro h
        obtain ⟨a, w, b, rfl, hw, hb, ha⟩ := h
        rw [ha rfl]
        exact ⟨w, hw, b, rfl, hb⟩
    · have hne : (c :: re).head? ≠ some caret := fun h => hc (Option.some.inj h)
      rw [«match», if_neg hc, unanchored, if_neg hne]
      exact hloop hne

end PbsCow.Grep

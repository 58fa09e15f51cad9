import Mathlib.Algebra.Group.Nat.Defs
import Mathlib.Algebra.Ring.Int.Defs
import Mathlib.Data.List.Forall2
import PbsCow.Parlour

namespace PbsCow
set_option autoImplicit true

namespace ParlourInput

open Parlour (Customer Order)

/-- What the C library leaves open: the buffer after a `getline` that failed, by the number of such
calls, and the fields of a customer that `realloc` has just added. -/
structure Env where
  stale : Nat → List Char
  junk : Nat → Int × Int × Int

structure Reader where
  stream : List Char
  eofs : Nat
  arr : List Customer

def Reader.start (stream : List Char) : Reader := ⟨stream, 0, []⟩

/-- The lines of a stream, each with its newline. -/
def lines : List Char → List (List Char)
  | [] => []
  | c :: cs =>
    if c = '\n' then [c] :: lines cs
    else match lines cs with
      | [] => [[c]]
      | l :: ls => (c :: l) :: ls

def takeLine : List Char → List Char
  | [] => []
  | c :: cs => if c = '\n' then [c] else c :: takeLine cs

/-- The number returned, the buffer, and what is left. -/
def getline (env : Env) (s : Reader) : Int × List Char × Reader :=
  if s.stream = [] then (-1, env.stale s.eofs, { s with eofs := s.eofs + 1 })
  else
    let line := takeLine s.stream
    (line.length, line, { s with stream := s.stream.drop line.length })

def isspace (c : Char) : Bool := c = ' ' || ('\t' ≤ c && c ≤ '\r')

/-- A string ends at its first zero. -/
def cstring (buf : List Char) : List Char := buf.takeWhile fun c => c ≠ Char.ofNat 0

/-- `strtol` keeps to 64 bits, and the number is stored in an `int`. -/
def toInt (v : Int) : Int := Int.bmod (max (-2 ^ 63) (min v (2 ^ 63 - 1))) (2 ^ 32)

/-- One `%d`: the number and what follows it. -/
def scanInt (s : List Char) : Option (Int × List Char) :=
  let s := s.dropWhile isspace
  let negative := s.head? = some '-'
  let s := if s.head? = some '-' ∨ s.head? = some '+' then s.tail else s
  let digits := s.takeWhile Char.isDigit
  let v : Int := digits.foldl (fun v d => 10 * v + (d.toNat - '0'.toNat : Nat)) 0
  if digits = [] then none
  else some (toInt (if negative then -v else v), s.dropWhile Char.isDigit)

/-- The numbers that `sscanf` stores: it stops at the first that is not there. -/
def scanInts : Nat → List Char → List Int
  | 0, _ => []
  | n + 1, s =>
    match scanInt s with
    | none => []
    | some (v, s) => v :: scanInts n s

def sscanf (buf : List Char) : List Int := scanInts 3 (cstring buf)

/-- What the calls of `strtok` return. -/
def tokens (buf : List Char) : List (List Char) :=
  ((cstring buf).splitOnP fun c => c = ' ' || c = '\t' || c = '\n').filter fun t => t ≠ []

/-- `strcpy` has no string to copy when there is no token, and `flav` has 100 bytes. -/
def order (buf : List Char) : Option Order :=
  match tokens buf with
  | [] => none
  | flav :: toppings =>
    if flav.length < 100 then some ⟨String.ofList flav, toppings.map String.ofList⟩ else none

def readOrders (env : Env) : Nat → Reader → Option (List Order × Reader)
  | 0, s => some ([], s)
  | n + 1, s =>
    let (_, input, s) := getline env s
    match order input with
    | none => none
    | some o => (readOrders env n s).map fun r => (o :: r.1, r.2)

inductive Turn
  | stop (s : Reader)
  | next (s : Reader)
  | undefined

/-- The number of orders that the code takes from the first line of customer `i`. -/
def num_icecream (env : Env) (i : Nat) (input : List Char) : Int := (sscanf input).getD 2 (env.junk i).2.2

/-- One turn of the loop that reads the customers. -/
def turn (env : Env) (s : Reader) : Turn :=
  let (sze, input, s) := getline env s
  if sze = 1 then .stop s
  else
    let i := s.arr.length
    let c := (sscanf input).getD 0 (env.junk i).1
    let t_arr := (sscanf input).getD 1 (env.junk i).2.1
    match readOrders env (num_icecream env i input).toNat s with
    | none => .undefined
    | some (orders, s) => .next { s with arr := s.arr ++ [⟨c, t_arr, orders⟩] }

/-- The loop reaches its `break`. -/
inductive Loop (env : Env) : Reader → Reader → Prop
  | stop (h : turn env s = .stop s') : Loop env s s'
  | next (h : turn env s = .next s') (hl : Loop env s' s'') : Loop env s s''

/-- The input format: the customers, and perhaps an empty line after them. -/
inductive Format : List (List Char) → List Customer → Prop
  | done : Format [] []
  | blank : Format [['\n']] []
  | customer (hl : line.length ≠ 1) (hn : sscanf line = [c, t_arr, (orders.length : Int)])
      (ho : List.Forall₂ (fun l o => order l = some o) ls orders) (h : Format rest cs) :
      Format (line :: (ls ++ rest)) (⟨c, t_arr, orders⟩ :: cs)

/-- The loop ends, the stream is consumed, and the customers are those of the input. -/
def ReadsInput (env : Env) (stream : List Char) : Prop :=
  ∃ s, Loop env (.start stream) s ∧ s.stream = [] ∧ ∀ cs, Format (lines stream) cs → s.arr = cs

/-- Customers `i`, `i + 1`, … with all the lines that their first lines announce, each with a
flavour, and then one line of length one as the last. -/
inductive Ends (env : Env) : Nat → List (List Char) → Prop
  | blank (hl : line.length = 1) : Ends env i [line]
  | customer (hl : line.length ≠ 1) (hn : ls.length = (num_icecream env i line).toNat)
      (ho : ∀ l, l ∈ ls → (order l).isSome) (h : Ends env (i + 1) rest) :
      Ends env i (line :: (ls ++ rest))

theorem takeLine_ne_nil (h : stream ≠ []) : takeLine stream ≠ [] := by
  cases stream with
  | nil => contradiction
  | cons c cs =>
    rw [takeLine]
    split <;> simp

theorem lines_cons (h : stream ≠ []) :
    lines stream = takeLine stream :: lines (stream.drop (takeLine stream).length) := by
  induction stream with
  | nil => contradiction
  | cons c cs ih =>
    rw [lines, takeLine]
    split
    · simp
    · cases cs with
      | nil => simp [lines, takeLine]
      | cons d ds => rw [ih (by simp)]; rfl

theorem lines_eq_nil : lines stream = [] ↔ stream = [] := by
  constructor
  · intro h
    by_contra hne
    rw [lines_cons hne] at h
    cases h
  · intro h
    rw [h, lines]

/-- A `getline` that does not fail takes the first line. -/
theorem getline_line (env : Env) (h : lines s.stream = line :: rest) :
    ∃ s' : Reader, getline env s = ((line.length : Int), line, s') ∧ lines s'.stream = rest ∧ s'.arr = s.arr := by
  have hne : s.stream ≠ [] := fun h0 => by simp [h0, lines] at h
  rw [lines_cons hne] at h
  injection h with hline hrest
  subst hline
  exact ⟨_, if_neg hne, hrest, rfl⟩

theorem getline_eof (h : s.stream = []) :
    getline env s = (-1, env.stale s.eofs, { s with eofs := s.eofs + 1 }) := if_pos h

/-- Whatever `getline` returns, it leaves the lines after the first and the customers. -/
theorem getline_tail (h : getline env s = (sze, input, s')) :
    lines s'.stream = (lines s.stream).tail ∧ s'.arr = s.arr := by
  by_cases hs : s.stream = []
  · rw [getline_eof hs] at h
    cases h
    exact ⟨by simp [hs, lines], rfl⟩
  · cases hl : lines s.stream with
    | nil => exact absurd (lines_eq_nil.mp hl) hs
    | cons line rest =>
      obtain ⟨s₁, hget, hrest, harr⟩ := getline_line env hl
      rw [hget] at h
      cases h
      exact ⟨hrest, harr⟩

theorem getline_more (h : getline env s = (sze, input, s')) (hs : s'.stream ≠ []) :
    lines s.stream = input :: lines s'.stream ∧ sze = input.length ∧ s'.arr = s.arr := by
  cases hl : lines s.stream with
  | nil =>
    have htail := (getline_tail h).1
    rw [hl] at htail
    exact absurd (lines_eq_nil.mp htail) hs
  | cons line rest =>
    obtain ⟨s₁, hget, hrest, harr⟩ := getline_line env hl
    rw [hget] at h
    cases h
    exact ⟨by rw [hrest], rfl, harr⟩

/-- The orders of a customer are a line each, when the stream is not used up by them. -/
theorem readOrders_more (h : readOrders env n s = some (orders, s')) (hs : s'.stream ≠ []) :
    ∃ ls, lines s.stream = ls ++ lines s'.stream ∧ s'.arr = s.arr ∧ ls.length = n ∧
      List.Forall₂ (fun l o => order l = some o) ls orders := by
  induction n generalizing s orders with
  | zero =>
    cases h
    exact ⟨[], rfl, rfl, rfl, .nil⟩
  | succ n ih =>
    obtain ⟨⟨sze, input, s₁⟩, hget⟩ : ∃ r, getline env s = r := ⟨_, rfl⟩
    simp only [readOrders, hget] at h
    cases ho : order input with
    | none => simp [ho] at h
    | some o =>
      simp only [ho, Option.map_eq_some_iff] at h
      obtain ⟨⟨os, s₂⟩, hr, he⟩ := h
      cases he
      obtain ⟨ls, hls, harr, hlen, hos⟩ := ih hr
      have hs₁ : s₁.stream ≠ [] := by
        intro h0
        rw [h0] at hls
        have hnil := (List.append_eq_nil_iff.mp hls.symm).2
        exact hs (lines_eq_nil.mp hnil)
      obtain ⟨hl, -, harr₁⟩ := getline_more hget hs₁
      exact ⟨input :: ls, by rw [hl, hls]; rfl, harr.trans harr₁, congrArg (· + 1) hlen, .cons ho hos⟩

theorem readOrders_lines (env : Env) (h : lines s.stream = ls ++ rest) (ho : ∀ l, l ∈ ls → (order l).isSome) :
    ∃ orders s', readOrders env ls.length s = some (orders, s') ∧ lines s'.stream = rest ∧
      s'.arr = s.arr ∧ List.Forall₂ (fun l o => order l = some o) ls orders := by
  induction ls generalizing s with
  | nil => exact ⟨[], s, rfl, h, rfl, .nil⟩
  | cons l ls ih =>
    obtain ⟨s₁, hget, hrest, harr⟩ := getline_line env h
    obtain ⟨o, hl⟩ := Option.isSome_iff_exists.mp (ho l List.mem_cons_self)
    obtain ⟨os, s', hread, hrest', harr', hos⟩ := ih hrest fun l hl => ho l (List.mem_cons_of_mem _ hl)
    refine ⟨o :: os, s', ?_, hrest', harr'.trans harr, .cons hl hos⟩
    simp only [List.length_cons, readOrders, hget, hl, hread, Option.map_some]

/-- After the end of the stream no line of length one comes. -/
theorem Loop.more (h : Loop env s s') : s.stream ≠ [] := by
  induction h with
  | stop h =>
    intro h0
    simp [turn, getline_eof h0] at h
    split at h <;> cases h
  | @next s s' s'' h _ ih =>
    intro h0
    simp only [turn, getline_eof h0] at h
    split at h
    · cases h
    · split at h
      · cases h
      · next orders s₂ hr =>
        injection h with h
        subst h
        obtain ⟨ls, hls, -⟩ := readOrders_more hr ih
        rw [h0, lines] at hls
        exact ih (lines_eq_nil.mp (List.append_eq_nil_iff.mp hls.symm).2)

theorem orders_some (h : List.Forall₂ (fun l o => order l = some o) ls orders) :
    ∀ l, l ∈ ls → (order l).isSome := by
  induction h with
  | nil => simp
  | cons ho _ ih => simpa [ho] using ih

theorem Loop.ends (h : Loop env s s') (hs : s'.stream = []) : Ends env s.arr.length (lines s.stream) := by
  induction h with
  | @stop s s' h =>
    obtain ⟨⟨sze, input, s₁⟩, hget⟩ : ∃ r, getline env s = r := ⟨_, rfl⟩
    have hmore := (Loop.stop h).more
    cases hl : lines s.stream with
    | nil => exact absurd (lines_eq_nil.mp hl) hmore
    | cons line rest =>
      obtain ⟨s₂, hget₂, hrest, -⟩ := getline_line env hl
      simp only [turn, hget₂] at h
      split at h
      · next hsze =>
        injection h with h
        subst h
        rw [hs, lines] at hrest
        subst hrest
        exact .blank (by exact_mod_cast hsze)
      · split at h <;> cases h
  | @next s s' s'' h hloop ih =>
    obtain ⟨⟨sze, input, s₁⟩, hget⟩ : ∃ r, getline env s = r := ⟨_, rfl⟩
    simp only [turn, hget] at h
    split at h
    · cases h
    · next hsze =>
      split at h
      · cases h
      · next orders s₂ hr =>
        injection h with h
        subst h
        have hmore := hloop.more
        obtain ⟨ls, hls, harr, hlen, hos⟩ := readOrders_more hr hmore
        have hs₁ : s₁.stream ≠ [] := by
          intro h0
          rw [h0] at hls
          exact hmore (lines_eq_nil.mp (List.append_eq_nil_iff.mp hls.symm).2)
        obtain ⟨hl, hsz, harr₁⟩ := getline_more hget hs₁
        have hends := ih hs
        rw [List.length_append, harr, harr₁] at hends
        rw [hl, hls]
        refine .customer ?_ (by rw [hlen, harr₁]) ?_ hends
        · intro h1
          apply hsze
          rw [hsz, h1]
          rfl
        · exact orders_some hos

/-- The orders of a customer are settled by their lines. -/
theorem orders_unique (h : List.Forall₂ (fun l o => order l = some o) ls orders)
    (h' : List.Forall₂ (fun l o => order l = some o) ls orders') : orders = orders' := by
  induction h generalizing orders' with
  | nil =>
    cases h'
    rfl
  | cons ho _ ih =>
    cases h' with
    | cons ho' h' =>
      rw [ho] at ho'
      injection ho' with ho'
      rw [ho', ih h']

theorem Format.nil (h : Format [] cs) : cs = [] := by
  cases h
  rfl

theorem Format.length_one (h : Format [line] cs) (hl : line.length = 1) : cs = [] := by
  generalize hls : [line] = ls at h
  cases h with
  | done => rfl
  | blank => rfl
  | customer hne =>
    injection hls with hline
    exact absurd hl (hline ▸ hne)

/-- A line that is not of length one can only be the first of a customer's. -/
theorem Format.first (h : Format (line :: ls) cs) (hl : line.length ≠ 1) :
    ∃ c t_arr orders los rest cs', ls = los ++ rest ∧ cs = ⟨c, t_arr, orders⟩ :: cs' ∧
      sscanf line = [c, t_arr, (orders.length : Int)] ∧
      List.Forall₂ (fun l o => order l = some o) los orders ∧ Format rest cs' := by
  generalize hls : line :: ls = all at h
  cases h with
  | done => cases hls
  | blank =>
    injection hls with hline
    exact absurd (congrArg List.length hline) hl
  | customer _ hn ho h =>
    injection hls with hline hls
    subst hline
    exact ⟨_, _, _, _, _, _, hls, rfl, hn, ho, h⟩

theorem Ends.loop (h : Ends env i ls) (hl : lines s.stream = ls) (hi : s.arr.length = i) :
    ∃ s', Loop env s s' ∧ s'.stream = [] ∧ ∀ cs, Format ls cs → s'.arr = s.arr ++ cs := by
  induction h generalizing s with
  | @blank line i hline =>
    obtain ⟨s', hget, hrest, harr⟩ := getline_line env hl
    refine ⟨s', .stop ?_, lines_eq_nil.mp hrest, fun cs hcs => ?_⟩
    · simp only [turn, hget, hline]
      rfl
    · rw [hcs.length_one hline, harr, List.append_nil]
  | @customer i line ls rest hline hn ho _ ih =>
    obtain ⟨s₁, hget, hrest, harr⟩ := getline_line env hl
    obtain ⟨orders, s₂, hread, hrest₂, harr₂, hos⟩ := readOrders_lines env hrest ho
    have hsze : ¬ (line.length : Int) = 1 := fun h1 => hline (by exact_mod_cast h1)
    obtain ⟨customer, hc⟩ : ∃ customer : Customer, customer =
        ⟨(sscanf line).getD 0 (env.junk i).1, (sscanf line).getD 1 (env.junk i).2.1, orders⟩ := ⟨_, rfl⟩
    have hturn : turn env s = .next { s₂ with arr := s.arr ++ [customer] } := by
      simp only [turn, hget, if_neg hsze, harr, hi, ← hn, hread, harr₂, hc]
    obtain ⟨s', hloop, hs', hcs⟩ := ih (s := { s₂ with arr := s.arr ++ [customer] }) hrest₂
      (by rw [List.length_append, hi]; rfl)
    refine ⟨s', .next hturn hloop, hs', fun cs hf => ?_⟩
    obtain ⟨c, t_arr, orders', los, rest', cs', he, rfl, hn', ho', hf'⟩ := hf.first hline
    -- the third number says where the customer's lines end
    have hlen : ls.length = los.length := by
      rw [hn, num_icecream, hn', ho'.length_eq]
      rfl
    obtain ⟨rfl, rfl⟩ := List.append_inj he hlen
    rw [hcs cs' hf', hc, orders_unique hos ho', hn', List.append_assoc]
    rfl

/-- What the loop needs of its input is the line of length one, and nothing after it. -/
theorem reads_iff_ends (env : Env) (stream : List Char) :
    ReadsInput env stream ↔ Ends env 0 (lines stream) := by
  constructor
  · rintro ⟨s, hloop, hs, _⟩
    exact hloop.ends hs
  · intro h
    obtain ⟨s, hloop, hs, hcs⟩ := h.loop (s := .start stream) rfl rfl
    exact ⟨s, hloop, hs, hcs⟩

theorem Ends.last (h : Ends env i ls) : ∃ line, line ∈ ls.getLast? ∧ line.length = 1 := by
  induction h with
  | blank hl => exact ⟨_, rfl, hl⟩
  | customer _ _ _ _ ih =>
    obtain ⟨last, hlast, hl⟩ := ih
    refine ⟨last, ?_, hl⟩
    rw [← List.cons_append, List.getLast?_append, hlast]
    rfl

/-- The customers of the example in the problem statement, which no empty line follows. -/
def exampleInput : List Char :=
  "1 1 2\nvanilla caramel\nchocolate brownie strawberry\n2 2 1\nvanilla strawberry caramel\n".toList

theorem exampleInput_not_read : ¬ ReadsInput ⟨fun _ => [], fun _ => (0, 0, 0)⟩ exampleInput := by
  rintro ⟨s, hloop, hs, _⟩
  obtain ⟨line, hlast, hl⟩ := (hloop.ends hs).last
  have hlines : (lines exampleInput).getLast? = some "vanilla strawberry caramel\n".toList := by decide
  rw [Reader.start, hlines] at hlast
  cases hlast
  revert hl
  decide

end ParlourInput
end PbsCow

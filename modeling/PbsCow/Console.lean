import PbsCow.Lib.Bytes
import PbsCow.Lib.Ring

namespace PbsCow.Console
set_option autoImplicit true

def INPUT_BUF_SIZE : Nat := 128

/-- Control-`x`. -/
def C (x : Char) : Byte := BitVec.ofNat 8 (x.toNat - '@'.toNat)

def newline : Byte := BitVec.ofNat 8 '\n'.toNat

def return' : Byte := BitVec.ofNat 8 '\r'.toNat

def delete : Byte := 0x7f

/-- `cons`, without its lock. -/
structure Cons where
  buf : Nat → Byte
  r : BitVec 32
  w : BitVec 32
  e : BitVec 32

/-- The characters from index `i` to index `j`. -/
def Cons.cells (cons : Cons) (i j : BitVec 32) : List Byte :=
  (List.range (j - i).toNat).map fun k => cons.buf (ringSlot INPUT_BUF_SIZE (i + BitVec.ofNat 32 k))

/-- The loop of the kill-line key, which can step back for as long as `e` is not `w`. -/
def killLine : Nat → Cons → Cons
  | 0, cons => cons
  | k + 1, cons =>
    if cons.e ≠ cons.w ∧ cons.buf (ringSlot INPUT_BUF_SIZE (cons.e - 1)) ≠ newline then
      killLine k { cons with e := cons.e - 1 }
    else cons

/-- The buffer after an input character; the echo is left out. -/
def consoleintr (c : Byte) (cons : Cons) : Cons :=
  if c = C 'P' then cons
  else if c = C 'U' then killLine (cons.e - cons.w).toNat cons
  else if c = C 'H' ∨ c = delete then
    if cons.e ≠ cons.w then { cons with e := cons.e - 1 } else cons
  else if c ≠ 0 ∧ (cons.e - cons.r).toNat < INPUT_BUF_SIZE then
    let c := if c = return' then newline else c
    let cons := { cons with
      buf := Function.update cons.buf (ringSlot INPUT_BUF_SIZE cons.e) c
      e := cons.e + 1 }
    if c = newline ∨ c = C 'D' ∨ (cons.e - cons.r).toNat = INPUT_BUF_SIZE then { cons with w := cons.e }
    else cons
  else cons

/-- What a reader finds while it holds the lock: whether it has been killed, and whether
`either_copyout` succeeds at an address. -/
structure Env where
  killed : Bool
  copyout : Word → Bool

/-- How a section under the lock ends: the reader sleeps with `n` bytes to go, or returns. -/
inductive Ended where
  | slept (n : Nat) (dst : Word)
  | ret (n : Int)

/-- `consoleread` with `n` bytes to go, up to a `sleep` or the end. Also returns the bytes that it has
copied out. -/
def consoleread (env : Env) (target : Nat) : Nat → Word → Cons → Cons × List Byte × Ended
  | 0, _, cons => (cons, [], .ret target)
  | n + 1, dst, cons =>
    if cons.r = cons.w then
      (cons, [], if env.killed then .ret (-1) else .slept (n + 1) dst)
    else
      let c := cons.buf (ringSlot INPUT_BUF_SIZE cons.r)
      let cons := { cons with r := cons.r + 1 }
      if c = C 'D' then
        -- saved for the next call, which is to get a 0-byte result
        let cons := if n + 1 < target then { cons with r := cons.r - 1 } else cons
        (cons, [], .ret (target - (n + 1 : Nat)))
      else if env.copyout dst = false then (cons, [], .ret (target - (n + 1 : Nat)))
      else if c = newline then (cons, [c], .ret (target - n))
      else
        let (cons, copied, ended) := consoleread env target n (dst + 1) cons
        (cons, c :: copied, ended)

/-- A line editor: the lines that have been committed and not been read, and the one that is being
typed. -/
structure Editor where
  lines : List Byte
  typing : List Byte

/-- The editor after an input character. -/
def Editor.key (c : Byte) (ed : Editor) : Editor :=
  if c = C 'P' then ed
  else if c = C 'U' then { ed with typing := [] }
  else if c = C 'H' ∨ c = delete then { ed with typing := ed.typing.dropLast }
  else if c = 0 ∨ ed.lines.length + ed.typing.length = INPUT_BUF_SIZE then ed
  else
    let c := if c = return' then newline else c
    let typing := ed.typing ++ [c]
    if c = newline ∨ c = C 'D' ∨ ed.lines.length + typing.length = INPUT_BUF_SIZE then
      ⟨ed.lines ++ typing, []⟩
    else { ed with typing := typing }

/-- A reader takes a line, or what it has room for. An end of file ends the call, and is taken if
nothing has been read before it. A byte that cannot be copied out has been taken all the same. -/
def Editor.read (env : Env) (target : Nat) : Nat → Word → Editor → Editor × List Byte × Ended
  | 0, _, ed => (ed, [], .ret target)
  | n + 1, dst, ed =>
    match ed.lines with
    | [] => (ed, [], if env.killed then .ret (-1) else .slept (n + 1) dst)
    | c :: lines =>
      if c = C 'D' then
        (if n + 1 < target then ed else { ed with lines := lines }, [], .ret (target - (n + 1 : Nat)))
      else if env.copyout dst = false then
        ({ ed with lines := lines }, [], .ret (target - (n + 1 : Nat)))
      else if c = newline then ({ ed with lines := lines }, [c], .ret (target - n))
      else
        let (ed, copied, ended) := Editor.read env target n (dst + 1) { ed with lines := lines }
        (ed, c :: copied, ended)

/-- An input device: what an input character does, and a section of a reader. -/
structure Device (σ : Type) where
  intr : Byte → σ → σ
  read : Env → Nat → Nat → Word → σ → σ × List Byte × Ended

def console : Device Cons := ⟨consoleintr, consoleread⟩

def lineEditor : Device Editor := ⟨Editor.key, Editor.read⟩

/-- A call of `consoleread` that sleeps. -/
structure Call where
  target : Nat
  n : Nat
  dst : Word

def Ended.call (target : Nat) : Ended → Option Call
  | .slept n dst => some ⟨target, n, dst⟩
  | .ret _ => none

/-- A device with the calls that sleep in it, one for a thread. -/
structure State (σ : Type) where
  dev : σ
  calls : Nat → Option Call

/-- Something that happens under the lock: an input character, or thread `t` enters `consoleread` or
goes on after a `sleep`. -/
inductive Event where
  | intr (c : Byte)
  | read (t : Nat) (n : Int) (dst : Word) (env : Env)
  | resume (t : Nat) (env : Env)

/-- A section of a reader, with the bytes that it copies out and how it ends. -/
def enter (D : Device σ) (s : State σ) (t : Nat) (env : Env) (call : Call) :
    State σ × Option (List Byte × Ended) :=
  let (dev, copied, ended) := D.read env call.target call.n call.dst s.dev
  (⟨dev, Function.update s.calls t (ended.call call.target)⟩, some (copied, ended))

def step (D : Device σ) (s : State σ) : Event → State σ × Option (List Byte × Ended)
  | .intr c => ({ s with dev := D.intr c s.dev }, none)
  | .read t n dst env =>
    match s.calls t with
    | none => enter D s t env ⟨n.toNat, n.toNat, dst⟩
    | some _ => (s, none)
  | .resume t env =>
    match s.calls t with
    | none => (s, none)
    | some call => enter D s t env call

/-- A run, with what the readers have seen of it. -/
def run (D : Device σ) (s : State σ) : List Event → State σ × List (Option (List Byte × Ended))
  | [] => (s, [])
  | ev :: evs =>
    let (s, out) := step D s ev
    let (s, outs) := run D s evs
    (s, out :: outs)

end PbsCow.Console

import Mathlib.Data.Fintype.Card
import PbsCow.Lib.Hoare
import PbsCow.Lib.Links
import PbsCow.Riscv

namespace PbsCow.Bcache
set_option autoImplicit true

def MAXOPBLOCKS : Nat := 10

def LOGSIZE : Nat := MAXOPBLOCKS * 3

def NBUF : Nat := MAXOPBLOCKS * 3

/-- `&bcache.head`: the buffers are numbered, and it comes after them. -/
def head : Nat := NBUF

structure Block where
  dev : BitVec 32
  blockno : BitVec 32
  deriving DecidableEq

/-- `struct buf`, without its data and links. The sleep-lock names its holder. -/
structure Buf where
  valid : Bool
  block : Block
  lock : Option (Fin NPROC)
  refcnt : BitVec 32

inductive Panic where
  | brelse
  | noBuffers
  | noFuel

/-- What a process is in the middle of: the end of `bget`, where it waits for the sleep-lock of the
buffer, or `brelse`, after it has given the sleep-lock back. -/
inductive Call where
  | bread (b : Nat) (k : Block)
  | brelse (b : Nat)

def Call.buf : Call → Nat
  | .bread b _ => b
  | .brelse b => b

/-- `bcache` and its users. The last two fields only record: for which block the holder of a buffer's
sleep-lock has asked, and the buffers that are pinned, with their block at that time. -/
structure State where
  buf : Nat → Buf
  prev : Nat → Nat
  next : Nat → Nat
  calls : Fin NPROC → Option Call
  asked : Nat → Block
  pins : List (Nat × Block)

abbrev Sys := StateT State (Except Panic)

/-- `b->next->prev = b->prev; b->prev->next = b->next;` -/
def State.unlink (s : State) (b : Nat) : State :=
  let prev := Function.update s.prev (s.next b) (s.prev b)
  { s with prev := prev, next := Function.update s.next (prev b) (s.next b) }

/-- `b->next = bcache.head.next; b->prev = &bcache.head; bcache.head.next->prev = b;
bcache.head.next = b;` -/
def State.pushFront (s : State) (b : Nat) : State :=
  let next := Function.update s.next b (s.next head)
  let prev := Function.update s.prev b head
  let prev := Function.update prev (next head) b
  { s with prev := prev, next := Function.update next head b }

/-- `bcache` after the first lines of `binit`. -/
def State.zero : State where
  buf _ := ⟨false, ⟨0, 0⟩, none, 0⟩
  prev := Function.update (fun _ => 0) head head
  next := Function.update (fun _ => 0) head head
  calls _ := none
  asked _ := ⟨0, 0⟩
  pins := []

def binit : State := (List.range NBUF).foldl State.pushFront .zero

def setBuf (b : Nat) (f : Buf → Buf) : Sys Unit :=
  modify fun s => { s with buf := Function.update s.buf b (f (s.buf b)) }

def putCall (t : Fin NPROC) (c : Option Call) : Sys Unit :=
  modify fun s => { s with calls := Function.update s.calls t c }

/-- `bget` up to `acquiresleep`. -/
def bget (t : Fin NPROC) (k : Block) : Sys Unit := do
  let s ← get
  match firstAlong s.next head (fun b => (s.buf b).block = k) (NBUF + 1) (s.next head) with
  | none => throw .noFuel
  | some (some b) =>
    setBuf b fun x => { x with refcnt := x.refcnt + 1 }
    putCall t (some (.bread b k))
  | some none =>
    match firstAlong s.prev head (fun b => (s.buf b).refcnt = 0) (NBUF + 1) (s.prev head) with
    | none => throw .noFuel
    | some none => throw .noBuffers
    | some (some b) =>
      setBuf b fun x => { x with block := k, valid := false, refcnt := 1 }
      putCall t (some (.bread b k))

/-- One turn of the loop of `acquiresleep`. -/
def acquiresleep (t : Fin NPROC) (b : Nat) (k : Block) : Sys Unit := do
  if ((← get).buf b).lock.isSome then return ()
  setBuf b fun x => { x with lock := some t }
  modify fun s => { s with asked := Function.update s.asked b k }
  putCall t none

/-- The end of `bread`: a process that holds the buffer reads the block. -/
def breadFill (t : Fin NPROC) (b : Nat) : Sys Unit := do
  if ((← get).buf b).lock = some t then
    setBuf b fun x => { x with valid := true }

/-- `brelse` up to the end of `releasesleep`. -/
def brelse (t : Fin NPROC) (b : Nat) : Sys Unit := do
  if ((← get).buf b).lock ≠ some t then throw .brelse
  setBuf b fun x => { x with lock := none }
  putCall t (some (.brelse b))

/-- The rest of `brelse`. -/
def brelsePut (t : Fin NPROC) (b : Nat) : Sys Unit := do
  setBuf b fun x => { x with refcnt := x.refcnt - 1 }
  putCall t none
  if ((← get).buf b).refcnt = 0 then
    modify fun s => s.unlink b
    modify fun s => s.pushFront b

def bpin (b : Nat) : Sys Unit := do
  setBuf b fun x => { x with refcnt := x.refcnt + 1 }
  modify fun s => { s with pins := (b, (s.buf b).block) :: s.pins }

def bunpin (b : Nat) : Sys Unit := do
  setBuf b fun x => { x with refcnt := x.refcnt - 1 }
  modify fun s => { s with pins := s.pins.eraseP fun p => p.1 = b }

inductive Event where
  | bread (t : Fin NPROC) (k : Block)
  | fill (t : Fin NPROC) (b : Nat)
  | brelse (t : Fin NPROC) (b : Nat)
  | resume (t : Fin NPROC)
  | bpin (b : Nat)
  | bunpin (b : Nat)

def step : Event → Sys Unit
  | .bread t k => do
    match (← get).calls t with
    | none => bget t k
    | some _ => return ()
  | .fill t b => breadFill t b
  | .brelse t b => do
    match (← get).calls t with
    | none => brelse t b
    | some _ => return ()
  | .resume t => do
    match (← get).calls t with
    | none => return ()
    | some (.bread b k) => acquiresleep t b k
    | some (.brelse b) => brelsePut t b
  | .bpin b => bpin b
  | .bunpin b => bunpin b

/-- The log pins a buffer for each block in its header, and unpins what it has pinned. -/
def Event.Paired (s : State) : Event → Prop
  | .bpin b => b < NBUF ∧ s.pins.length < LOGSIZE
  | .bunpin b => ∃ k, (b, k) ∈ s.pins
  | _ => True

/-- A process is about to hold the buffer, or has just held it. -/
def State.inCall (s : State) (b : Nat) (t : Fin NPROC) : Bool := (s.calls t).any fun c => c.buf = b

/-- The holder of a buffer, those that wait for it or are giving it back, and its pins. -/
def State.users (s : State) (b : Nat) : Nat :=
  (s.buf b).lock.isSome.toNat + (Finset.univ.filter fun t => s.inCall b t).card +
    s.pins.countP fun p => p.1 = b

end PbsCow.Bcache

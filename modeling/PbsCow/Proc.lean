import PbsCow.ProcPagetable
import Mathlib.Data.Fintype.Basic
import Mathlib.Data.List.FinRange

namespace PbsCow
set_option autoImplicit true

inductive ProcState where
  | UNUSED | USED | SLEEPING | RUNNABLE | RUNNING | ZOMBIE
deriving DecidableEq, Repr

abbrev Slot := Fin NPROC

/-- What a process can sleep on: a process, the clock, or some other kernel object. -/
inductive Chan where
  | none
  | proc (p : Option Slot)
  | ticks
  | other (n : Nat)
deriving DecidableEq

/-- `struct proc`; C's `int` and `uint` fields that the code computes with are 32-bit words. -/
structure Proc where
  state : ProcState
  chan : Chan
  killed : Bool
  xstate : BitVec 32
  pid : Int
  parent : Option Slot
  sz : Nat
  pagetable : Nat
  trapframe : Nat
  rtime : BitVec 32
  ctime : BitVec 32
  etime : BitVec 32
  my_wtime : BitVec 32
  my_rtime : BitVec 32
  my_stime : BitVec 32
  static_pri : BitVec 32
  rbi : BitVec 32
  tot_sche : BitVec 32
  curr_rbi : BitVec 32

structure Pipe where
  page : Nat
  readopen : Bool
  writeopen : Bool

/-- The kernel's memory and tables. `argv` holds the buffers that a running `sys_exec` has allocated
for its arguments. -/
structure Sys where
  mem : Mem
  proc : Slot → Proc
  initproc : Option Slot
  nextpid : Int
  ticks : BitVec 32
  kernel_pagetable : Nat
  disk : List Nat
  pipes : List Pipe
  argv : List Nat

abbrev Ker := StateT Sys (Except Panic)

/-- Run code that only touches memory. -/
def onMem (x : Kern α) : Ker α := zoom Sys.mem (fun m t => { t with mem := m }) x

def Sys.setProc (t : Sys) (i : Slot) (f : Proc → Proc) : Sys :=
  { t with proc := Function.update t.proc i (f (t.proc i)) }

def setProc (i : Slot) (f : Proc → Proc) : Ker Unit := modify fun t => t.setProc i f

def allocpid : Ker Int := do
  let pid := (← get).nextpid
  modify fun t => { t with nextpid := t.nextpid + 1 }
  return pid

def freeproc (L : Layout) (p : Slot) : Ker Unit := do
  let q := (← get).proc p
  if q.trapframe ≠ 0 then onMem (kfree L q.trapframe)
  setProc p fun q => { q with trapframe := 0 }
  if q.pagetable ≠ 0 then onMem (procFreepagetable L q.pagetable q.sz)
  setProc p fun q => { q with
    pagetable := 0, sz := 0, pid := 0, parent := none, chan := .none, killed := false, xstate := 0,
    state := .UNUSED }

def allocproc (L : Layout) : Ker (Option Slot) := do
  let t ← get
  match (List.finRange NPROC).find? fun p => (t.proc p).state = .UNUSED with
  | none => return none
  | some p =>
    let pid ← allocpid
    setProc p fun q => { q with pid := pid, state := .USED }
    let trapframe ← onMem kalloc
    setProc p fun q => { q with trapframe := trapframe }
    if trapframe = 0 then
      freeproc L p
      return none
    let pagetable ← onMem (procPagetable L trapframe)
    setProc p fun q => { q with pagetable := pagetable }
    if pagetable = 0 then
      freeproc L p
      return none
    let ticks := (← get).ticks
    setProc p fun q => { q with
      rtime := 0, etime := 0, ctime := ticks, my_wtime := 0, my_rtime := 0, my_stime := 0,
      static_pri := 50, rbi := 25, tot_sche := 0, curr_rbi := 0 }
    return some p

/-- Byte offsets in `struct trapframe`, which has 36 words. -/
def tfEpc : Nat := 24
def tfSp : Nat := 48
def tfA0 : Nat := 112
def tfA1 : Nat := 120
def tfWords : Nat := 36

def growproc (L : Layout) (p : Slot) (n : Int) : Ker Int := do
  let q := (← get).proc p
  let mut sz := q.sz
  if n > 0 then
    sz ← onMem (uvmalloc L q.pagetable sz (sz + n.toNat) PTE_W)
    if sz = 0 then return -1
  else if n < 0 then
    -- `sz + n` is a uint64
    sz ← onMem (uvmdealloc L q.pagetable sz ((sz + n) % 2 ^ 64).toNat)
  setProc p fun q => { q with sz := sz }
  return 0

/-- `*(np->trapframe) = *(p->trapframe)`. -/
def copyTrapframe (dst src : Nat) : Kern Unit :=
  modify fun s => s.setPage (dst / PGSIZE) fun i =>
    if i < tfWords then s.ram (src / PGSIZE) i else s.ram (dst / PGSIZE) i

/-- The child's slot, or `none` for -1. -/
def fork (L : Layout) (p : Slot) : Ker (Option Slot) := do
  match ← allocproc L with
  | none => return none
  | some np =>
    let parent := (← get).proc p
    let child := (← get).proc np
    if (← onMem (uvmcopy L parent.pagetable child.pagetable parent.sz)) < 0 then
      freeproc L np
      return none
    setProc np fun q => { q with sz := parent.sz, parent := some p }
    onMem (copyTrapframe child.trapframe parent.trapframe)
    onMem (storeWord (child.trapframe + tfA0) 0)
    setProc np fun q => { q with state := .RUNNABLE }
    return some np

/-- `me` is the process that calls `wakeup`. -/
def Sys.wakeup (t : Sys) (me : Option Slot) (chan : Chan) : Sys :=
  { t with proc := fun q =>
      if some q ≠ me ∧ (t.proc q).state = .SLEEPING ∧ (t.proc q).chan = chan then
        { t.proc q with state := .RUNNABLE }
      else t.proc q }

def Sys.reparent (t : Sys) (p : Slot) : Sys :=
  (List.finRange NPROC).foldl (fun t pp =>
    if (t.proc pp).parent = some p then
      (t.setProc pp fun q => { q with parent := t.initproc }).wakeup (some p) (.proc t.initproc)
    else t) t

/-- The open files that `exit` closes are not part of the model: pipes are closed by steps of
their own. -/
def exit (p : Slot) (status : BitVec 32) : Ker Unit := do
  if some p = (← get).initproc then throw .initExiting
  modify fun t => t.reparent p
  modify fun t => t.wakeup (some p) (.proc (t.proc p).parent)
  let ticks := (← get).ticks
  setProc p fun q => { q with xstate := status, state := .ZOMBIE, etime := ticks }

/-- The bytes of a C `int`. -/
def intBytes (n : BitVec 32) : List Byte :=
  [n.extractLsb' 0 8, n.extractLsb' 8 8, n.extractLsb' 16 8, n.extractLsb' 24 8]

/-- One scan of `wait` over the table: the result if it is over, else whether there are children. -/
def waitScan (L : Layout) (p : Slot) (addr : Nat) : List Slot → Bool → Ker (Int ⊕ Bool)
  | [], havekids => return .inr havekids
  | pp :: rest, havekids => do
    let q := (← get).proc pp
    if q.parent = some p then
      if q.state = .ZOMBIE then
        let pagetable := ((← get).proc p).pagetable
        if addr ≠ 0 then
          if (← onMem (copyout L pagetable addr (intBytes q.xstate))) < 0 then return .inl (-1)
        freeproc L pp
        return .inl q.pid
      else waitScan L p addr rest true
    else waitScan L p addr rest havekids

/-- `none` when the process goes to sleep; it will scan again after it is woken. -/
def wait (L : Layout) (p : Slot) (addr : Nat) : Ker (Option Int) := do
  match ← waitScan L p addr (List.finRange NPROC) false with
  | .inl ret => return some ret
  | .inr havekids =>
    if !havekids || ((← get).proc p).killed then return some (-1)
    setProc p fun q => { q with chan := .proc (some p), state := .SLEEPING }
    return none

/-- The scan of `waitx`; `wtime` and `rtime` are what its caller's variables hold. -/
def waitxScan (L : Layout) (p : Slot) (addr : Nat) (wtime rtime : BitVec 32) :
    List Slot → Bool → Ker ((Int ⊕ Bool) × BitVec 32 × BitVec 32)
  | [], havekids => return (.inr havekids, wtime, rtime)
  | np :: rest, havekids => do
    let q := (← get).proc np
    if q.parent = some p then
      if q.state = .ZOMBIE then
        let rtime := q.rtime
        let wtime := q.etime - q.ctime - q.rtime
        let pagetable := ((← get).proc p).pagetable
        if addr ≠ 0 then
          if (← onMem (copyout L pagetable addr (intBytes q.xstate))) < 0 then
            return (.inl (-1), wtime, rtime)
        freeproc L np
        return (.inl q.pid, wtime, rtime)
      else waitxScan L p addr wtime rtime rest true
    else waitxScan L p addr wtime rtime rest havekids

/-- The result and the two times, or `none` when the process goes to sleep. -/
def waitx (L : Layout) (p : Slot) (addr : Nat) (wtime rtime : BitVec 32) :
    Ker (Option (Int × BitVec 32 × BitVec 32)) := do
  match ← waitxScan L p addr wtime rtime (List.finRange NPROC) false with
  | (.inl ret, times) => return some (ret, times)
  | (.inr havekids, times) =>
    if !havekids || ((← get).proc p).killed then return some (-1, times)
    setProc p fun q => { q with chan := .proc (some p), state := .SLEEPING }
    return none

/-- The times are copied out whatever `waitx` returns. -/
def sysWaitx (L : Layout) (p : Slot) (addr addr1 addr2 : Nat) (wtime rtime : BitVec 32) :
    Ker (Option Int) := do
  match ← waitx L p addr wtime rtime with
  | none => return none
  | some (ret, wtime, rtime) =>
    let pagetable := ((← get).proc p).pagetable
    if (← onMem (copyout L pagetable addr1 (intBytes wtime))) < 0 then return some (-1)
    if (← onMem (copyout L pagetable addr2 (intBytes rtime))) < 0 then return some (-1)
    return some ret

def setkilled (p : Slot) : Ker Unit := setProc p fun q => { q with killed := true }

def killScan (pid : Int) : List Slot → Ker Int
  | [] => return -1
  | p :: rest => do
    if ((← get).proc p).pid = pid then
      setProc p fun q => { q with
        killed := true, state := if q.state = .SLEEPING then .RUNNABLE else q.state }
      return 0
    killScan pid rest

def kill (pid : Int) : Ker Int := killScan pid (List.finRange NPROC)

/-- The loop of `sys_set_priority`: the old priority, and whether to yield. -/
def setPriorityScan (pid new_priority : Int) : List Slot → Int → Bool → Ker (Int × Bool)
  | [], oldstatic_return, do_yield => return (oldstatic_return, do_yield)
  | p :: rest, oldstatic_return, do_yield => do
    let q := (← get).proc p
    if q.pid = pid then
      let oldstatic_return := q.static_pri.toInt
      setProc p fun q => { q with rbi := 25, static_pri := BitVec.ofInt 32 new_priority }
      setPriorityScan pid new_priority rest oldstatic_return
        (do_yield || decide (oldstatic_return > new_priority))
    else setPriorityScan pid new_priority rest oldstatic_return do_yield

def sysSetPriority (pid new_priority : Int) : Ker (Int × Bool) := do
  if new_priority < 0 ∨ new_priority > 100 then return (-1, false)
  setPriorityScan pid new_priority (List.finRange NPROC) (-1) false

def initcode : List Byte :=
  [0x17, 0x05, 0x00, 0x00, 0x13, 0x05, 0x45, 0x02,
   0x97, 0x05, 0x00, 0x00, 0x93, 0x85, 0x35, 0x02,
   0x93, 0x08, 0x70, 0x00, 0x73, 0x00, 0x00, 0x00,
   0x93, 0x08, 0x20, 0x00, 0x73, 0x00, 0x00, 0x00,
   0xef, 0xf0, 0x9f, 0xff, 0x2f, 0x69, 0x6e, 0x69,
   0x74, 0x00, 0x00, 0x24, 0x00, 0x00, 0x00, 0x00,
   0x00, 0x00, 0x00, 0x00]

def userinit (L : Layout) : Ker Unit := do
  match ← allocproc L with
  | none => throw .nullPointer
  | some p =>
    modify fun t => { t with initproc := some p }
    let q := (← get).proc p
    onMem (uvmfirst q.pagetable initcode)
    setProc p fun q => { q with sz := PGSIZE }
    onMem (storeWord (q.trapframe + tfEpc) 0)
    onMem (storeWord (q.trapframe + tfSp) (BitVec.ofNat 64 PGSIZE))
    setProc p fun q => { q with state := .RUNNABLE }

end PbsCow

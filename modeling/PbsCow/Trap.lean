import PbsCow.Exec
import PbsCow.Mmu

namespace PbsCow
set_option autoImplicit true

/-- Addresses that processes sleep on: the fields `nread` and `nwrite` of `struct pipe`. -/
def nreadChan (page : Nat) : Chan := .other (page + 536)
def nwriteChan (page : Nat) : Chan := .other (page + 540)

/-- The page of the new pipe, or 0; the file table is not part of the model. -/
def pipealloc : Ker Nat := do
  let page ← onMem kalloc
  if page ≠ 0 then modify fun t => { t with pipes := ⟨page, true, true⟩ :: t.pipes }
  return page

def Pipe.close (q : Pipe) (writable : Bool) : Pipe :=
  if writable then { q with writeopen := false } else { q with readopen := false }

def pipeclose (L : Layout) (p : Slot) (page : Nat) (writable : Bool) : Ker Unit := do
  match (← get).pipes.find? fun q => q.page = page with
  | none => return ()
  | some pi =>
    let pi := pi.close writable
    modify fun t => t.wakeup (some p) (if writable then nreadChan page else nwriteChan page)
    if !pi.readopen && !pi.writeopen then
      modify fun t => { t with pipes := t.pipes.filter fun q => q.page ≠ page }
      onMem (kfree L page)
    else
      modify fun t => { t with pipes := t.pipes.map fun q => if q.page = page then pi else q }

/-- Copy the two descriptors to the user's array. -/
def copyoutFds (L : Layout) (p : Slot) (fdarray : Nat) (fd0 fd1 : BitVec 32) : Ker Int := do
  let pagetable := ((← get).proc p).pagetable
  if (← onMem (copyout L pagetable fdarray (intBytes fd0))) < 0 then return -1
  onMem (copyout L pagetable ((fdarray + 4) % 2 ^ 64) (intBytes fd1))

/-- The descriptors `fd0` and `fd1` come from `fdalloc`. -/
def sysPipe (L : Layout) (p : Slot) (fdarray : Nat) (fd0 fd1 : BitVec 32) : Ker Int := do
  let page ← pipealloc
  if page = 0 then return -1
  if (← copyoutFds L p fdarray fd0 fd1) < 0 then
    pipeclose L p page false
    pipeclose L p page true
    return -1
  return 0

/-- The system calls that reach memory or the process table, with their arguments. -/
inductive Syscall where
  | fork
  | exit (status : BitVec 32)
  | wait (addr : Nat)
  | sbrk (n : BitVec 32)
  | kill (pid : Int)
  | exec (namei : List Byte → Option (List Byte)) (path uargv : Nat)
  | pipe (fdarray : Nat) (fd0 fd1 : BitVec 32)
  /-- `close` of the last descriptor for one end of a pipe. -/
  | close (page : Nat) (writable : Bool)
  /-- The kernel-to-user half of `read` and of `fstat`. -/
  | read (dstva : Nat) (src : List Byte)
  | sleep (chan : Chan)
  /-- `wtime` and `rtime` are what the kernel's stack holds before the call. -/
  | waitx (addr addr1 addr2 : Nat) (wtime rtime : BitVec 32)
  | setPriority (pid new_priority : Int)

/-- How a trap ends: back in user code, perhaps with a value, or not yet. -/
inductive Reply where
  | resume
  | value (n : Int)
  | child (np : Slot)
  | stopped
deriving DecidableEq

/-- The value that `syscall` puts in `a0`. -/
def Reply.ret (t : Sys) : Reply → Option Int
  | .value n => some n
  | .child np => some (t.proc np).pid
  | _ => none

def setReturn (p : Slot) (r : Reply) : Ker Unit := do
  let t ← get
  match r.ret t with
  | none => return ()
  | some n => onMem (storeWord ((t.proc p).trapframe + tfA0) (BitVec.ofInt 64 n))

def syscall (L : Layout) (p : Slot) : Syscall → Ker Reply
  | .fork => do
    match ← fork L p with
    | none => return .value (-1)
    | some np => return .child np
  | .exit status => do
    exit p status
    return .stopped
  | .wait addr => do
    match ← wait L p addr with
    | none => return .stopped
    | some ret => return .value ret
  | .sbrk n => do
    let addr := ((← get).proc p).sz
    if (← growproc L p n.toInt) < 0 then return .value (-1)
    return .value addr
  | .kill pid => do return .value (← kill pid)
  | .exec namei path uargv => do return .value (← sysExec L namei p path uargv)
  | .pipe fdarray fd0 fd1 => do return .value (← sysPipe L p fdarray fd0 fd1)
  | .close page writable => do
    pipeclose L p page writable
    return .value 0
  | .read dstva src => do
    let pagetable := ((← get).proc p).pagetable
    return .value (← onMem (copyout L pagetable dstva src))
  | .sleep chan => do
    setProc p fun q => { q with chan := chan, state := .SLEEPING }
    return .stopped
  | .waitx addr addr1 addr2 wtime rtime => do
    match ← sysWaitx L p addr addr1 addr2 wtime rtime with
    | none => return .stopped
    | some ret => return .value ret
  | .setPriority pid new_priority => do
    let (ret, do_yield) ← sysSetPriority pid new_priority
    if do_yield then
      -- `yield`: the value is returned when the process runs again
      setReturn p (.value ret)
      setProc p fun q => { q with state := .RUNNABLE }
      return .stopped
    return .value ret

/-- The user registers that the kernel reads at a trap. -/
structure Regs where
  epc : Word
  sp : Word

inductive Cause where
  | syscall (c : Syscall)
  /-- `scause` 15, with the address in `stval`. -/
  | storeFault (addr : Nat)
  | timer
  | unexpected

/-- `uservec` and the first lines of `usertrap` save the user registers. -/
def uservec (p : Slot) (regs : Regs) : Ker Unit := do
  let trapframe := ((← get).proc p).trapframe
  onMem (storeWord (trapframe + tfSp) regs.sp)
  onMem (storeWord (trapframe + tfEpc) regs.epc)

/-- The branch of `usertrap` for store page faults. -/
def storePageFault (L : Layout) (p : Slot) (addr : Nat) : Ker Unit := do
  let q := (← get).proc p
  let sp := (← onMem (loadWord (q.trapframe + tfSp))).toNat
  if MAXVA ≤ addr ∨ (addr < sp ∧ subWord sp PGSIZE ≤ addr) then setkilled p
  if (← onMem (cowalloc L q.pagetable (PGROUNDDOWN addr))) < 0 then setkilled p

/-- `if(killed(p)) exit(-1)`. -/
def exitIfKilled (p : Slot) (k : Ker Reply) : Ker Reply := do
  if ((← get).proc p).killed then
    exit p (-1)
    return .stopped
  k

def usertrap (L : Layout) (p : Slot) (regs : Regs) (cause : Cause) : Ker Reply := do
  uservec p regs
  match cause with
  | .syscall c =>
    exitIfKilled p do
      let trapframe := ((← get).proc p).trapframe
      onMem (storeWord (trapframe + tfEpc) (regs.epc + 4))
      let r ← syscall L p c
      if r = .stopped then return .stopped
      setReturn p r
      exitIfKilled p (return r)
  | .storeFault addr =>
    storePageFault L p addr
    exitIfKilled p (return .resume)
  | .timer =>
    exitIfKilled p do
      -- `yield`
      setProc p fun q => { q with state := .RUNNABLE }
      return .stopped
  | .unexpected =>
    setkilled p
    exitIfKilled p (return .resume)

/-- One step of the machine: a switch to a process, or something that a running process does. -/
inductive Op where
  | dispatch (p : Slot)
  | load (p : Slot) (regs : Regs) (va : Nat)
  | store (p : Slot) (regs : Regs) (va : Nat) (b : Byte)
  | trap (p : Slot) (regs : Regs) (cause : Cause)

inductive Out where
  | skipped
  | done
  | loaded (b : Byte)
  | stored
  /-- The store faults again after its page fault has been handled. -/
  | faulted
  | killed
  | reply (r : Reply)
deriving DecidableEq

def whenState (p : Slot) (s : ProcState) (k : Ker Out) : Ker Out := do
  if ((← get).proc p).state = s then k else return .skipped

def load (L : Layout) (p : Slot) (regs : Regs) (va : Nat) : Ker Out := do
  let t ← get
  match t.mem.userLoad (t.proc p).pagetable va with
  | some b => return .loaded b
  | none =>
    let _ ← usertrap L p regs .unexpected
    return .killed

/-- Try a store; `none` is a page fault. -/
def tryStore (p : Slot) (va : Nat) (b : Byte) : Ker (Option Unit) := do
  let t ← get
  match t.mem.userStore (t.proc p).pagetable va b with
  | some m =>
    set { t with mem := m }
    return some ()
  | none => return none

/-- A store that faults is tried again when the fault has been handled. -/
def store (L : Layout) (p : Slot) (regs : Regs) (va : Nat) (b : Byte) : Ker Out := do
  match ← tryStore p va b with
  | some () => return .stored
  | none =>
    match ← usertrap L p regs (.storeFault va) with
    | .stopped => return .killed
    | _ =>
      match ← tryStore p va b with
      | some () => return .stored
      | none => return .faulted

def step (L : Layout) : Op → Ker Out
  | .dispatch p => whenState p .RUNNABLE do
    setProc p fun q => { q with state := .RUNNING }
    return .done
  | .load p regs va => whenState p .RUNNING (load L p regs va)
  | .store p regs va b => whenState p .RUNNING (store L p regs va b)
  | .trap p regs cause => whenState p .RUNNING do return .reply (← usertrap L p regs cause)

def run (L : Layout) : List Op → Ker (List Out)
  | [] => return []
  | op :: ops => do
    let out ← step L op
    return out :: (← run L ops)

end PbsCow

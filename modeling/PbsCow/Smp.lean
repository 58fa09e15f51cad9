import PbsCow.Scheduler
import PbsCow.Lib.Threads

namespace PbsCow
set_option autoImplicit true

/-- The spinlocks: `p->lock`, `wait_lock`, `tickslock`, and those of other kernel objects. -/
inductive Lock where
  | proc (i : Slot)
  | wait
  | ticks
  | obj (n : Nat)
deriving DecidableEq

/-- The system calls that take locks of the process table. A process waits for a condition on a kernel
object (`test`), or makes it true before or after its `wakeup` (`make`). `x` is true for `waitx`. -/
inductive Call where
  | exit (status : BitVec 32)
  | wait (x : Bool) (addr : Nat)
  | kill (pid : Int)
  | fork
  | setPriority (pid new_priority : Int)
  | sleep (n : BitVec 32)
  | test (n : Nat)
  | make (n : Nat) (before : Bool)

/-- Where a process is while it holds no lock, so that it can be interrupted: in user space, or before
the next `acquire` of a system call. The lists are what is left of a loop over the table. -/
inductive Point where
  | user
  | exit (status : BitVec 32)
  | wait (x : Bool) (addr : Nat)
  | kill (pid : Int) (l : List Slot)
  | fork (l : List Slot)
  | setPriority (pid new_priority : Int) (l : List Slot) (do_yield : Bool)
  | sleep (n : BitVec 32) (ticks0 : Option (BitVec 32))
  | test (n : Nat)
  | make (n : Nat) (before : Bool)

/-- Where a CPU can go on: in its scheduler, or in the kernel code of a process. `scan` has no candidate
yet; `chosen` is the end of the scan and `back` follows its `swtch`. `forkret`, `yielded`, `slept` and
`dead` are where `swtch` takes a process. -/
inductive Label where
  | scan (l : List Slot)
  | chosen (high_pri : Option Slot)
  | back (high_pri : Slot)
  | point (p : Slot) (q : Point)
  | forkret (p : Slot)
  | yielded (p : Slot) (q : Point)
  | slept (p : Slot) (q : Point)
  | dead (p : Slot)

/-- What the kernel does not decide: interrupts, system calls, page faults that kill, and whether an
allocation or a `copyout` fails. -/
inductive Input where
  | go
  | intr
  | call (y : Call)
  | fault
  | fail

/-- A process that has exited. -/
structure Exit where
  uid : Nat
  pid : Int
  xstate : BitVec 32
  rtime : BitVec 32
  ctime : BitVec 32
  etime : BitVec 32

/-- What `wait` or `waitx` of process `waiter` has returned; the last two are for `waitx`. -/
structure Reap where
  uid : Nat
  waiter : Slot
  parent : Option Slot
  forker : Slot
  pid : Int
  xstate : Option (BitVec 32)
  rtime : Option (BitVec 32)
  wtime : Option (BitVec 32)

/-- The kernel's memory as its CPUs share it. The memory of the processes is left out. `cpu c` is
`c->proc`, `saved c` and `context i` are the contexts of a scheduler and of a process; `cond n` is the
condition that the lock `obj n` protects. The fields after it only record: on which lock a CPU spins,
on which kernel stack it is, whether its scan saw a runnable process, on what a process sleeps or is
about to, whether a condition has been true since a completed `wakeup`, which processes there have
been, and the ticks with the slots that `update_time` has still to visit. -/
structure Kmem (C : Type) where
  proc : Slot → Proc
  lock : Lock → Option C
  cpu : C → Option Slot
  saved : C → Label
  context : Slot → Label
  initproc : Slot
  nextpid : Int
  ticks : BitVec 32
  cond : Nat → Bool
  spin : C → Option Lock
  stack : C → Option Slot
  saw : C → Bool
  asleep : Slot → Option Chan
  woken : Nat → Bool
  uid : Slot → Nat
  nextuid : Nat
  forker : Slot → Slot
  exits : List Exit
  reaps : List Reap
  now : Nat
  born : Slot → Nat
  due : Slot → Bool

abbrev Code (C : Type) := Prog (Kmem C) Input Label

variable {C : Type}

def Kmem.setProc (s : Kmem C) (i : Slot) (f : Proc → Proc) : Kmem C :=
  { s with proc := Function.update s.proc i (f (s.proc i)) }

@[simp] theorem Kmem.setProc_self (s : Kmem C) (i : Slot) (f : Proc → Proc) :
    (s.setProc i f).proc i = f (s.proc i) := by
  simp [setProc]

theorem Kmem.setProc_of_ne (s : Kmem C) (h : j ≠ i) (f : Proc → Proc) :
    (s.setProc i f).proc j = s.proc j := by
  simp [setProc, h]

@[simp] theorem Kmem.setProc_asleep (s : Kmem C) (i : Slot) (f : Proc → Proc) :
    (s.setProc i f).asleep = s.asleep := rfl

@[simp] theorem Kmem.setProc_cpu (s : Kmem C) (i : Slot) (f : Proc → Proc) :
    (s.setProc i f).cpu = s.cpu := rfl

variable [DecidableEq C]

def Kmem.release (s : Kmem C) (c : C) (l : Lock) : Option (Kmem C) :=
  if s.lock l = some c then some { s with lock := Function.update s.lock l none } else none

namespace Smp

def slots : List Slot := List.finRange NPROC

/-- The CPU spins until it gets the lock. -/
def acquire (c : C) (l : Lock) (k : Code C) : Code C :=
  .modify (fun s => { s with spin := Function.update s.spin c (some l) }) <|
  .act (fun s => if s.lock l = none then some { s with
      lock := Function.update s.lock l (some c), spin := Function.update s.spin c none } else none)
    fun _ => k

/-- `release` panics unless the CPU holds the lock. -/
def release (c : C) (l : Lock) (k : Code C) : Code C := .act (fun s => s.release c l) fun _ => k

/-- A loop over the table that locks one slot at a time. -/
def visit (c : C) (f : Slot → Kmem C → Kmem C) (k : Code C) : List Slot → Code C
  | [] => k
  | i :: l => acquire c (.proc i) <| .modify (f i) <| release c (.proc i) <| visit c f k l

/-- What `wakeup` does to a slot. -/
def wake (chan : Chan) (i : Slot) (s : Kmem C) : Kmem C :=
  if (s.proc i).state = .SLEEPING ∧ (s.proc i).chan = chan then
    Kmem.setProc { s with asleep := Function.update s.asleep i none } i fun q => { q with
      state := .RUNNABLE }
  else s

/-- `me` is the process of the CPU, if it runs one. -/
def wakeup (c : C) (me : Option Slot) (chan : Chan) (k : Code C) : Code C :=
  visit c (wake chan) k (slots.filter fun i => some i ≠ me)

/-- What `update_time` does to a slot. -/
def charge (i : Slot) (s : Kmem C) : Kmem C :=
  Kmem.setProc { s with due := Function.update s.due i false } i fun q =>
    if q.state = .RUNNING then { q with rtime := q.rtime + 1 } else q

/-- What the loop of `clockintr` does to a slot. -/
def countTick (i : Slot) (s : Kmem C) : Kmem C :=
  s.setProc i fun q => match q.state with
    | .RUNNING => { q with my_rtime := q.my_rtime + 1 }
    | .SLEEPING => { q with my_stime := q.my_stime + 1 }
    | .RUNNABLE => { q with my_wtime := q.my_wtime + 1 }
    | _ => q

def tick (s : Kmem C) : Kmem C :=
  { s with ticks := s.ticks + 1, now := s.now + 1, due := fun _ => true }

def clockintr (c : C) (me : Option Slot) (k : Code C) : Code C :=
  acquire c .ticks <| .modify tick <| visit c charge (visit c countTick
    (wakeup c me .ticks <| release c .ticks k) slots) slots

/-- `swtch` from a process to the scheduler of its CPU, with the checks of `sched`; `l` is where the
process will go on. -/
def sched (c : C) (p : Slot) (l : Label) : Code C :=
  .act (fun s => if s.lock (.proc p) = some c ∧ (s.proc p).state ≠ .RUNNING then some { s with
      context := Function.update s.context p l, stack := Function.update s.stack c none } else none)
    fun s => .goto (s.saved c)

def yield (c : C) (p : Slot) (q : Point) : Code C :=
  acquire c (.proc p) <|
  .modify (fun s => s.setProc p fun q => { q with state := .RUNNABLE }) <|
  sched c p (.yielded p q)

/-- A process that holds `lk` goes to sleep, and then goes on at `q`. -/
def sleep (c : C) (p : Slot) (chan : Chan) (lk : Lock) (q : Point) : Code C :=
  acquire c (.proc p) <|
  .act (fun s => (s.release c lk).map fun s => { s with
      asleep := Function.update s.asleep p (some chan) }) fun _ =>
  .modify (fun s => s.setProc p fun q => { q with chan := chan, state := .SLEEPING }) <|
  sched c p (.slept p q)

def reparent (c : C) (p : Slot) (k : Code C) : List Slot → Code C
  | [] => k
  | pp :: l => .read fun s =>
    if (s.proc pp).parent = some p then
      .modify (fun s => s.setProc pp fun q => { q with parent := some s.initproc }) <|
      .read fun s => wakeup c (some p) (.proc (some s.initproc)) (reparent c p k l)
    else reparent c p k l

/-- The last writes of `exit`. -/
def setZombie (p : Slot) (status : BitVec 32) (s : Kmem C) : Kmem C :=
  let e := ⟨s.uid p, (s.proc p).pid, status, (s.proc p).rtime, (s.proc p).ctime, s.ticks⟩
  Kmem.setProc { s with exits := e :: s.exits } p fun q => { q with
    xstate := status, state := .ZOMBIE, etime := s.ticks }

/-- A panic stops the CPU. -/
def exit (c : C) (p : Slot) (status : BitVec 32) : Code C :=
  .read fun s =>
  if p = s.initproc then .ret else
  acquire c .wait <| reparent c p (.read fun s =>
    wakeup c (some p) (.proc (s.proc p).parent) <|
    acquire c (.proc p) <| .modify (setZombie p status) <| release c .wait <|
    sched c p (.dead p)) slots

def freeproc (i : Slot) (s : Kmem C) : Kmem C :=
  s.setProc i fun q => { q with
    trapframe := 0, pagetable := 0, sz := 0, pid := 0, parent := none, chan := .none,
    killed := false, xstate := 0, state := .UNUSED }

/-- What `wait` does with a zombie, and what it returns. -/
def reap (p : Slot) (x : Bool) (addr : Nat) (pp : Slot) (s : Kmem C) : Kmem C :=
  let q := s.proc pp
  let r := {
    uid := s.uid pp, waiter := p, parent := q.parent, forker := s.forker pp, pid := q.pid,
    xstate := if addr ≠ 0 then some q.xstate else none,
    rtime := if x then some q.rtime else none,
    wtime := if x then some (q.etime - q.ctime - q.rtime) else none }
  freeproc pp { s with reaps := r :: s.reaps }

/-- `k` goes on with what `killed(p)` returns. -/
def killed (c : C) (p : Slot) (k : Bool → Code C) : Code C :=
  acquire c (.proc p) <| .read fun s => release c (.proc p) <| k (s.proc p).killed

/-- The loop of `wait`, or of `waitx` when `x`; `copyout` fails for an input `fail`. -/
def waitScan (c : C) (p : Slot) (x : Bool) (addr : Nat) : List Slot → Bool → Code C
  | [], havekids =>
    let leave := release c .wait <| .goto (.point p .user)
    let again := fun k => if k then leave else sleep c p (.proc (some p)) .wait (.wait x addr)
    if havekids then
      if x then .read fun s => again (s.proc p).killed else killed c p again
    else leave
  | pp :: l, havekids => .read fun s =>
    if (s.proc pp).parent = some p then
      acquire c (.proc pp) <| .read fun s =>
      if (s.proc pp).state = .ZOMBIE then .pick fun
        | .fail =>
          if addr ≠ 0 then release c (.proc pp) <| release c .wait <| .goto (.point p .user)
          else .modify (reap p x addr pp) <| release c (.proc pp) <| release c .wait <|
            .goto (.point p .user)
        | _ => .modify (reap p x addr pp) <| release c (.proc pp) <| release c .wait <|
          .goto (.point p .user)
      else release c (.proc pp) <| waitScan c p x addr l true
    else waitScan c p x addr l havekids

def setKilled (i : Slot) (s : Kmem C) : Kmem C :=
  if (s.proc i).state = .SLEEPING then
    Kmem.setProc { s with asleep := Function.update s.asleep i none } i fun q => { q with
      killed := true, state := .RUNNABLE }
  else s.setProc i fun q => { q with killed := true }

def kill (c : C) (p : Slot) (pid : Int) : List Slot → Code C
  | [] => .goto (.point p .user)
  | i :: l => acquire c (.proc i) <| .read fun s =>
    if (s.proc i).pid = pid then
      .modify (setKilled i) <| release c (.proc i) <| .goto (.point p .user)
    else release c (.proc i) <| .goto (.point p (.kill pid l))

def takeSlot (i : Slot) (s : Kmem C) : Kmem C :=
  Kmem.setProc { s with
    nextpid := s.nextpid + 1, uid := Function.update s.uid i s.nextuid, nextuid := s.nextuid + 1 } i
    fun q => { q with pid := s.nextpid, state := .USED }

/-- The end of `allocproc`. -/
def initSlot (i : Slot) (s : Kmem C) : Kmem C :=
  Kmem.setProc { s with
    context := Function.update s.context i (.forkret i), born := Function.update s.born i s.now } i
    fun q => { q with
      rtime := 0, etime := 0, ctime := s.ticks, my_wtime := 0, my_rtime := 0, my_stime := 0,
      static_pri := 50, rbi := 25, tot_sche := 0, curr_rbi := 0 }

/-- `fork` from the loop of `allocproc` on; the inputs tell whether the memory suffices. -/
def fork (c : C) (p : Slot) : List Slot → Code C
  | [] => .goto (.point p .user)
  | np :: l => acquire c (.proc np) <| .read fun s =>
    if (s.proc np).state = .UNUSED then
      let fails := .modify (freeproc np) <| release c (.proc np) <| .goto (.point p .user)
      .modify (takeSlot np) <| .pick fun
        | .fail => fails
        | _ => .modify (initSlot np) <| .pick fun
          | .fail => fails
          | _ =>
            .modify (fun s => Kmem.setProc { s with forker := Function.update s.forker np p } np
              fun q => { q with parent := some p }) <|
            .modify (fun s => s.setProc np fun q => { q with state := .RUNNABLE }) <|
            release c (.proc np) <| .goto (.point p .user)
    else release c (.proc np) <| .goto (.point p (.fork l))

/-- `sys_set_priority` after its check of `new_priority`. -/
def setPriority (c : C) (p : Slot) (pid new_priority : Int) : List Slot → Bool → Code C
  | [], do_yield => if do_yield then yield c p .user else .goto (.point p .user)
  | i :: l, do_yield => acquire c (.proc i) <| .read fun s =>
    if (s.proc i).pid = pid then
      .modify (fun s => s.setProc i fun q => { q with
        rbi := 25, static_pri := BitVec.ofInt 32 new_priority }) <|
      release c (.proc i) <| .goto (.point p (.setPriority pid new_priority l
        (do_yield || decide ((s.proc i).static_pri.toInt > new_priority))))
    else release c (.proc i) <| .goto (.point p (.setPriority pid new_priority l do_yield))

/-- `sys_sleep`; it has read `ticks0` unless this is its first test. -/
def sysSleep (c : C) (p : Slot) (n : BitVec 32) (ticks0 : Option (BitVec 32)) : Code C :=
  acquire c .ticks <| .read fun s =>
  let ticks0 := ticks0.getD s.ticks
  let leave := release c .ticks <| .goto (.point p .user)
  if s.ticks - ticks0 < n then
    killed c p fun k => if k then leave else sleep c p .ticks .ticks (.sleep n (some ticks0))
  else leave

/-- A process tests a condition until it is true, and may then make it false. -/
def test (c : C) (p : Slot) (n : Nat) : Code C :=
  acquire c (.obj n) <| .read fun s =>
  if s.cond n then .pick fun
    | .go => release c (.obj n) <| .goto (.point p .user)
    | _ => .modify (fun s => { s with
        cond := Function.update s.cond n false, woken := Function.update s.woken n false }) <|
      release c (.obj n) <| .goto (.point p .user)
  else sleep c p (.other n) (.obj n) (.test n)

def make (c : C) (p : Slot) (n : Nat) (before : Bool) : Code C :=
  let setCond := Prog.modify fun s : Kmem C => { s with cond := Function.update s.cond n true }
  let setWoken := Prog.modify fun s : Kmem C => { s with woken := Function.update s.woken n true }
  let leave := setWoken <| release c (.obj n) <| .goto (.point p .user)
  acquire c (.obj n) <|
  if before then setCond <| wakeup c (some p) (.other n) leave
  else wakeup c (some p) (.other n) <| setCond leave

/-- The first step of a system call. -/
def Call.point : Call → Point
  | .exit status => .exit status
  | .wait x addr => .wait x addr
  | .kill pid => .kill pid slots
  | .fork => .fork slots
  | .setPriority pid new_priority =>
    if new_priority < 0 ∨ new_priority > 100 then .user
    else .setPriority pid new_priority slots false
  | .sleep n => .sleep n none
  | .test n => .test n
  | .make n before => .make n before

/-- What process `p` does at a point if it is not interrupted. A page fault sets `p->killed` without
the lock. -/
def goOn (c : C) (p : Slot) : Point → Input → Code C
  | .user, .call y => .goto (.point p (Call.point y))
  | .user, .fault => .modify (fun s => s.setProc p fun q => { q with killed := true }) <|
    .goto (.point p .user)
  | .user, _ => .goto (.point p .user)
  | .exit status, _ => exit c p status
  | .wait x addr, _ => acquire c .wait <| waitScan c p x addr slots false
  | .kill pid l, _ => kill c p pid l
  | .fork l, _ => fork c p l
  | .setPriority pid new_priority l do_yield, _ => setPriority c p pid new_priority l do_yield
  | .sleep n ticks0, _ => sysSleep c p n ticks0
  | .test n, _ => test c p n
  | .make n before, _ => make c p n before

/-- The kernel code of a process on CPU `c`. A timer interrupt makes it yield; on the CPU `boot` it
counts a tick first. -/
def process (boot c : C) : Label → Code C
  | .point p q => .pick fun
    | .intr => if c = boot then clockintr c (some p) (yield c p q) else yield c p q
    | w => goOn c p q w
  | .forkret p => release c (.proc p) <| .goto (.point p .user)
  | .yielded p q => release c (.proc p) <| .goto (.point p q)
  | .slept p q =>
    .modify (fun s => s.setProc p fun q => { q with chan := .none }) <|
    release c (.proc p) <| .goto (.point p q)
  | _ => .ret

def refresh (i : Slot) (s : Kmem C) : Kmem C :=
  s.setProc i fun q => let (curr_rbi, q) := _rbi q; { q with curr_rbi := curr_rbi }

/-- The scan while it holds the lock of a candidate. -/
def scan (c : C) : List Slot → Slot → Code C
  | [], high_pri => .goto (.chosen (some high_pri))
  | p :: l, high_pri =>
    let take := release c (.proc high_pri) <| scan c l p
    let keep := release c (.proc p) <| scan c l high_pri
    .modify (refresh p) <| acquire c (.proc p) <| .read fun s =>
    if (s.proc p).state = .RUNNABLE then .read fun s =>
      if (s.proc p).dp < (s.proc high_pri).dp then take
      else .read fun s =>
      if (s.proc p).dp = (s.proc high_pri).dp ∧
          (s.proc p).tot_sche.toInt > (s.proc high_pri).tot_sche.toInt then take
      else .read fun s =>
      if (s.proc p).dp = (s.proc high_pri).dp ∧ (s.proc p).tot_sche = (s.proc high_pri).tot_sche ∧
          (s.proc p).ctime < (s.proc high_pri).ctime then take
      else keep
    else keep

/-- The scan before it has a candidate. -/
def scanFirst (c : C) : List Slot → Code C
  | [] => .goto (.chosen none)
  | p :: l => .modify (refresh p) <| acquire c (.proc p) <| .read fun s =>
    if (s.proc p).state = .RUNNABLE then
      .modify (fun s => { s with saw := Function.update s.saw c true }) <| scan c l p
    else release c (.proc p) <| .goto (.scan l)

/-- One CPU: its scheduler, which takes interrupts while it holds no lock, and the code `other` of the
processes that it runs. -/
def body (boot : C) (other : C → Label → Code C) (c : C) : Label → Code C
  | .scan l => .pick fun
    | .intr => if c = boot then clockintr c none (.goto (.scan l)) else .goto (.scan l)
    | _ => scanFirst c l
  | .chosen none => .goto (.scan slots)
  | .chosen (some high_pri) => .read fun s =>
    if (s.proc high_pri).state = .RUNNABLE then
      .modify (fun s => Kmem.setProc { s with cpu := Function.update s.cpu c (some high_pri) }
        high_pri fun q => { q with state := .RUNNING }) <|
      .act (fun s => some { s with
        stack := Function.update s.stack c (some high_pri),
        saved := Function.update s.saved c (.back high_pri) }) fun s =>
      .goto (s.context high_pri)
    else .goto (.scan slots)
  | .back high_pri =>
    .modify (fun s => { s with
      cpu := Function.update s.cpu c none, saw := Function.update s.saw c false }) <|
    release c (.proc high_pri) <| .goto (.scan slots)
  | l => other c l

end Smp

/-- The slot that `userinit` takes. -/
def Smp.first : Slot := ⟨0, by decide⟩

/-- The table after `userinit`. -/
def Kmem.start (C : Type) : Kmem C where
  proc := fun i => if i = Smp.first then { Proc.zero with
    state := .RUNNABLE, pid := 1, sz := PGSIZE, static_pri := 50, rbi := 25 } else .zero
  lock := fun _ => none
  cpu := fun _ => none
  saved := fun _ => .scan Smp.slots
  context := fun i => .forkret i
  initproc := Smp.first
  nextpid := 2
  ticks := 0
  cond := fun _ => false
  spin := fun _ => none
  stack := fun _ => none
  saw := fun _ => false
  asleep := fun _ => none
  woken := fun _ => false
  uid := fun i => i
  nextuid := NPROC
  forker := fun i => i
  exits := []
  reaps := []
  now := 0
  born := fun _ => 0
  due := fun _ => false

/-- Every CPU enters its scheduler. -/
def Smp.start (C : Type) : Threads C (Kmem C) Input Label :=
  ⟨.start C, fun _ => .goto (.scan slots)⟩

end PbsCow

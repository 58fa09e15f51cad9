import PbsCow.Boot
import PbsCow.Lib.Runs

namespace PbsCow
set_option autoImplicit true

/-- The recent behaviour index. The counters are `uint`s and so is the quotient; division is that of
the machine, which gives all ones for a zero divisor. The flag is spent by the first call. -/
def _rbi (q : Proc) : BitVec 32 × Proc :=
  if q.rbi = 25 then (25, { q with rbi := -1 })
  else
    let a := 50 * (3 * q.my_rtime - q.my_stime - q.my_wtime).smtUDiv
      (q.my_rtime + q.my_wtime + q.my_stime + 1)
    (if a.toInt < 0 then 0 else a, q)

/-- `min(p->static_pri + p->curr_rbi, 100)`: the sum is a `uint`, the arguments of `min` are `int`s. -/
def Proc.dp (q : Proc) : Int := min (q.static_pri + q.curr_rbi).toInt 100

/-- Whether the scan drops `high_pri` for `q`. -/
def Proc.beats (q high_pri : Proc) : Bool :=
  if q.dp < high_pri.dp then true
  else if q.dp = high_pri.dp ∧ q.tot_sche.toInt > high_pri.tot_sche.toInt then true
  else if q.dp = high_pri.dp ∧ q.tot_sche = high_pri.tot_sche ∧ q.ctime < high_pri.ctime then true
  else false

/-- What the scheduler writes to: `proc[i]`, or `cpus[c]`. -/
inductive Loc where
  | proc (i : Nat)
  | cpu (c : Nat)
deriving DecidableEq

def Loc.InTable : Loc → Prop
  | .proc i => i < NPROC
  | .cpu _ => True

/-- The kernel with its CPUs. `cpu c` is `cpus[c].proc`, and `beyond i` is what the kernel has where
`proc[i].tot_sche` would be for an `i` past the table. The last two fields only record: the writes
of the scheduler, and how often it has switched to a process and come back. -/
structure Machine where
  sys : Sys
  cpu : Nat → Option Slot
  beyond : Nat → BitVec 32
  writes : List Loc
  switches : Slot → Nat

abbrev Sched := StateT Machine (Except Panic)

def onSys (x : Ker α) : Sched α := zoom Machine.sys (fun t m => { m with sys := t }) x

def Machine.putProc (m : Machine) (p : Slot) (f : Proc → Proc) : Machine :=
  { m with sys := m.sys.setProc p f, writes := .proc p :: m.writes }

def putProc (p : Slot) (f : Proc → Proc) : Sched Unit := modify fun m => m.putProc p f

def putCpu (c : Nat) (p : Option Slot) : Sched Unit :=
  modify fun m => { m with cpu := Function.update m.cpu c p, writes := .cpu c :: m.writes }

/-- `proc[p].tot_sche++`. -/
def incTotSche (p : Nat) : Sched Unit :=
  if h : p < NPROC then putProc ⟨p, h⟩ fun q => { q with tot_sche := q.tot_sche + 1 }
  else modify fun m => { m with
    beyond := Function.update m.beyond p (m.beyond p + 1), writes := .proc p :: m.writes }

/-- The loop of the scheduler over the table. -/
def pbsScan : List Slot → Option Slot → Sched (Option Slot)
  | [], high_pri => return high_pri
  | p :: rest, high_pri => do
    putProc p fun q => let (curr_rbi, q) := _rbi q; { q with curr_rbi := curr_rbi }
    let m ← get
    if (m.sys.proc p).state = .RUNNABLE then
      match high_pri with
      | none => pbsScan rest (some p)
      | some h =>
        if (m.sys.proc p).beats (m.sys.proc h) then pbsScan rest (some p)
        else pbsScan rest high_pri
    else pbsScan rest high_pri

/-- One round of `scheduler` on CPU `c`, up to `swtch`. -/
def scheduler (c : Nat) : Sched Unit := do
  match ← pbsScan (List.finRange NPROC) none with
  | none => return ()
  | some high_pri =>
    if ((← get).sys.proc high_pri).state = .RUNNABLE then
      putProc high_pri fun q => { q with state := .RUNNING }
      putCpu c (some high_pri)

/-- The rest of the round, after the process has switched back: the loop has left its variable `p`
at the end of the table. -/
def schedulerBack (c : Nat) : Sched Unit := do
  let p := NPROC
  incTotSche p
  putCpu c none

def Sys.updateTime (t : Sys) : Sys :=
  { t with proc := fun i =>
      let q := t.proc i
      if q.state = .RUNNING then { q with rtime := q.rtime + 1 } else q }

/-- The loop of `clockintr` that counts ticks by state. -/
def Sys.countTicks (t : Sys) : Sys :=
  { t with proc := fun i =>
      let q := t.proc i
      match q.state with
      | .RUNNING => { q with my_rtime := q.my_rtime + 1 }
      | .SLEEPING => { q with my_stime := q.my_stime + 1 }
      | .RUNNABLE => { q with my_wtime := q.my_wtime + 1 }
      | _ => q }

/-- `me` is the process that the clock interrupts. -/
def clockintr (me : Option Slot) : Ker Unit := do
  modify fun t => { t with ticks := t.ticks + 1 }
  modify Sys.updateTime
  modify Sys.countTicks
  modify fun t => t.wakeup me .ticks

/-- Something that happens on the machine: a round of a scheduler, an operation of the process that
a CPU runs, or a tick of the clock. -/
inductive Event where
  | round (c : Nat)
  | user (c : Nat) (op : Op)
  | tick

/-- The process that does an operation. -/
def Op.slot : Op → Option Slot
  | .dispatch _ => none
  | .load p _ _ => some p
  | .store p _ _ _ => some p
  | .trap p _ _ => some p

/-- A process with a new pid has not been switched to. -/
def recount (t t' : Sys) (switches : Slot → Nat) (i : Slot) : Nat :=
  if (t'.proc i).pid = (t.proc i).pid then switches i else 0

/-- An operation of the process `p` that CPU `c` runs, with the switch back if it gives up the CPU. -/
def runOp (L : Layout) (c : Nat) (p : Slot) (op : Op) : Sched Unit := do
  let t := (← get).sys
  let _ ← onSys (step L op)
  modify fun m => { m with switches := recount t m.sys m.switches }
  if ((← get).sys.proc p).state ≠ .RUNNING then
    modify fun m => { m with switches := Function.update m.switches p (m.switches p + 1) }
    schedulerBack c

def Machine.event (L : Layout) : Event → Sched Unit
  | .round c => do
    if (← get).cpu c = none then scheduler c
  | .user c op => do
    match (← get).cpu c with
    | none => return ()
    | some p => if op.slot = some p then runOp L c p op
  | .tick => do onSys (clockintr ((← get).cpu 0))

/-- A machine that starts: no CPU has a process. -/
def Machine.start (ram : Nat → Page) (beyond : Nat → BitVec 32) : Machine :=
  ⟨Sys.start ram, fun _ => none, beyond, [], fun _ => 0⟩

end PbsCow

import PbsCow.Trap

namespace PbsCow
set_option autoImplicit true

def procMapstacks (kpgtbl : Nat) : List Nat → Kern Unit
  | [] => return ()
  | p :: rest => do
    let pa ← kalloc
    if pa = 0 then throw .kalloc
    kvmmap kpgtbl (KSTACK p) pa PGSIZE (PTE_R ||| PTE_W)
    procMapstacks kpgtbl rest

/-- `kalloc` is not checked here: a null page faults in the kernel. -/
def kvmmake (L : Layout) : Kern Nat := do
  let kpgtbl ← kalloc
  if kpgtbl = 0 then throw .nullPointer
  memset kpgtbl 0
  kvmmap kpgtbl UART0 UART0 PGSIZE (PTE_R ||| PTE_W)
  kvmmap kpgtbl VIRTIO0 VIRTIO0 PGSIZE (PTE_R ||| PTE_W)
  kvmmap kpgtbl PLIC PLIC 0x400000 (PTE_R ||| PTE_W)
  kvmmap kpgtbl KERNBASE KERNBASE (L.etext - KERNBASE) (PTE_R ||| PTE_X)
  kvmmap kpgtbl L.etext L.etext (PHYSTOP - L.etext) (PTE_R ||| PTE_W)
  kvmmap kpgtbl TRAMPOLINE L.trampoline PGSIZE (PTE_R ||| PTE_X)
  procMapstacks kpgtbl (List.range NPROC)
  return kpgtbl

def virtioDiskInit : Kern (List Nat) := do
  let desc ← kalloc
  let avail ← kalloc
  let used ← kalloc
  if desc = 0 ∨ avail = 0 ∨ used = 0 then throw .virtioDiskKalloc
  memset desc 0
  memset avail 0
  memset used 0
  return [desc, avail, used]

/-- The parts of `main` that set up memory and the process table. -/
def boot (L : Layout) : Ker Unit := do
  onMem (kinit L)
  let kernel_pagetable ← onMem (kvmmake L)
  modify fun t => { t with kernel_pagetable := kernel_pagetable }
  modify fun t => { t with proc := fun i => { t.proc i with state := .UNUSED } }
  let disk ← onMem virtioDiskInit
  modify fun t => { t with disk := disk }
  userinit L

/-- A `struct proc` in the zeroed part of the kernel image. -/
def Proc.zero : Proc where
  state := .UNUSED
  chan := .none
  killed := false
  xstate := 0
  pid := 0
  parent := none
  sz := 0
  pagetable := 0
  trapframe := 0
  rtime := 0
  ctime := 0
  etime := 0
  my_wtime := 0
  my_rtime := 0
  my_stime := 0
  static_pri := 0
  rbi := 0
  tot_sche := 0
  curr_rbi := 0

/-- The state in which `main` starts: RAM holds anything, the kernel's variables are zero. -/
def Sys.start (ram : Nat → Page) : Sys where
  mem := ⟨ram, 0, fun _ => 0⟩
  proc := fun _ => .zero
  initproc := none
  nextpid := 1
  ticks := 0
  kernel_pagetable := 0
  disk := []
  pipes := []
  argv := []

/-- The states between the operations of a kernel that has booted. -/
def Reachable (L : Layout) (t : Sys) : Prop :=
  ∃ ram ops outs, (do boot L; run L ops) (Sys.start ram) = .ok (outs, t)

end PbsCow

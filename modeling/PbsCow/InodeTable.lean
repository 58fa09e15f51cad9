import Mathlib.Data.Fintype.Card
import PbsCow.Lib.Hoare
import PbsCow.Riscv

namespace PbsCow.Itable
set_option autoImplicit true

def NINODE : Nat := 50

structure Key where
  dev : BitVec 32
  inum : BitVec 32
  deriving DecidableEq

/-- `struct dinode`, without its contents. -/
structure Dinode where
  type : BitVec 16
  nlink : BitVec 16

/-- `struct inode`, without its contents. The sleep-lock names its holder. -/
structure Inode (P : Type) where
  key : Key
  ref : Int
  lock : Option P
  valid : Bool
  type : BitVec 16
  nlink : BitVec 16

inductive Panic where
  | noInodes
  | ilock
  | noType
  | iunlock
  | schedLocks

/-- What a process is in the middle of: `ialloc`, which has marked an inode; `ilock`, which has the
sleep-lock; and `iput`, which is about to free the inode, has freed it, or has given the sleep-lock
back. -/
inductive Call where
  | ialloc (k : Key)
  | ilock (i : Nat)
  | iputTrunc (i : Nat)
  | iputUnlock (i : Nat)
  | iputLast (i : Nat)

/-- The entry to which a call of `iput` has the pointer that it puts. -/
def Call.puts (i : Nat) : Option Call → Bool
  | some (.iputTrunc j) => j = i
  | some (.iputUnlock j) => j = i
  | some (.iputLast j) => j = i
  | _ => false

/-- The table, the inodes on disk, and the processes. `ptrs` counts the pointers to each entry that
processes, open files and current directories have, without those that are being put. -/
structure State (P : Type) where
  inode : Nat → Inode P
  disk : Key → Dinode
  ptrs : Nat → Nat
  calls : P → Option Call

abbrev Sys (P : Type) := StateT (State P) (Except Panic)

section

variable {P : Type} [DecidableEq P]

def setInode (i : Nat) (f : Inode P → Inode P) : Sys P Unit :=
  modify fun s => { s with inode := Function.update s.inode i (f (s.inode i)) }

def setDisk (k : Key) (d : Dinode) : Sys P Unit :=
  modify fun s => { s with disk := Function.update s.disk k d }

def putCall (p : P) (c : Option Call) : Sys P Unit :=
  modify fun s => { s with calls := Function.update s.calls p c }

/-- There is one more pointer to the entry. -/
def point (i : Nat) : Sys P Unit :=
  modify fun s => { s with ptrs := Function.update s.ptrs i (s.ptrs i + 1) }

/-- There is one pointer less. -/
def unpoint (i : Nat) : Sys P Unit :=
  modify fun s => { s with ptrs := Function.update s.ptrs i (s.ptrs i - 1) }

def iget (k : Key) : Sys P Unit := do
  let s ← get
  match (List.range NINODE).find? fun i => (s.inode i).ref > 0 ∧ (s.inode i).key = k with
  | some i =>
    setInode i fun x => { x with ref := x.ref + 1 }
    point i
  | none =>
    match (List.range NINODE).find? fun i => (s.inode i).ref = 0 with
    | none => throw .noInodes
    | some i =>
      setInode i fun x => { x with key := k, ref := 1, valid := false }
      point i

def idup (i : Nat) : Sys P Unit := do
  setInode i fun x => { x with ref := x.ref + 1 }
  point i

/-- One turn of the loop of `ialloc`. -/
def iallocTurn (p : P) (k : Key) (type : BitVec 16) : Sys P Unit := do
  if ((← get).disk k).type = 0 then
    setDisk k ⟨type, 0⟩
    putCall p (some (.ialloc k))

/-- `ilock` up to `acquiresleep`. -/
def ilock (p : P) (i : Nat) : Sys P Unit := do
  let ip := (← get).inode i
  if ip.ref < 1 then throw .ilock
  if ip.lock.isSome then return ()
  setInode i fun x => { x with lock := some p }
  putCall p (some (.ilock i))

/-- The rest of `ilock`. -/
def ilockRead (p : P) (i : Nat) : Sys P Unit := do
  let s ← get
  if ¬ (s.inode i).valid then
    let dip := s.disk (s.inode i).key
    setInode i fun x => { x with type := dip.type, nlink := dip.nlink, valid := true }
    if dip.type = 0 then throw .noType
  putCall p none

/-- A process that has locked the inode changes its link count. -/
def setNlink (p : P) (i : Nat) (nlink : BitVec 16) : Sys P Unit := do
  if ((← get).inode i).lock = some p then
    setInode i fun x => { x with nlink := nlink }

def iupdate (p : P) (i : Nat) : Sys P Unit := do
  let ip := (← get).inode i
  if ip.lock = some p then
    setDisk ip.key ⟨ip.type, ip.nlink⟩

def iunlock (p : P) (i : Nat) : Sys P Unit := do
  let ip := (← get).inode i
  if ip.lock ≠ some p ∨ ip.ref < 1 then throw .iunlock
  setInode i fun x => { x with lock := none }

/-- The first section of `iput`. Where it has to wait for the sleep-lock, it sleeps with
`itable.lock` held. -/
def iput (p : P) (i : Nat) : Sys P Unit := do
  let ip := (← get).inode i
  unpoint i
  if ip.ref = 1 ∧ ip.valid ∧ ip.nlink = 0 then
    if ip.lock.isSome then throw .schedLocks
    setInode i fun x => { x with lock := some p }
    putCall p (some (.iputTrunc i))
  else
    setInode i fun x => { x with ref := x.ref - 1 }

/-- `iput` truncates the inode and frees it on disk. -/
def iputTrunc (p : P) (i : Nat) : Sys P Unit := do
  setInode i fun x => { x with type := 0 }
  let ip := (← get).inode i
  setDisk ip.key ⟨ip.type, ip.nlink⟩
  putCall p (some (.iputUnlock i))

def iputUnlock (p : P) (i : Nat) : Sys P Unit := do
  setInode i fun x => { x with valid := false, lock := none }
  putCall p (some (.iputLast i))

def iputLast (p : P) (i : Nat) : Sys P Unit := do
  setInode i fun x => { x with ref := x.ref - 1 }
  putCall p none

/-- What a process does next. A lookup in a directory, or of the root, calls `iget`. -/
inductive Event (P : Type) where
  | lookup (p : P) (k : Key)
  | ialloc (p : P) (k : Key) (type : BitVec 16)
  | idup (i : Nat)
  | ilock (p : P) (i : Nat)
  | setNlink (p : P) (i : Nat) (nlink : BitVec 16)
  | iupdate (p : P) (i : Nat)
  | iunlock (p : P) (i : Nat)
  | iput (p : P) (i : Nat)
  | resume (p : P)

/-- A process does something if it is not in the middle of a call. -/
def whenIdle (p : P) (x : Sys P Unit) : Sys P Unit := do
  match (← get).calls p with
  | none => x
  | some _ => return ()

def step : Event P → Sys P Unit
  | .lookup p k => whenIdle p (iget k)
  | .ialloc p k type => whenIdle p (iallocTurn p k type)
  | .idup i => idup i
  | .ilock p i => whenIdle p (ilock p i)
  | .setNlink p i nlink => whenIdle p (setNlink p i nlink)
  | .iupdate p i => whenIdle p (iupdate p i)
  | .iunlock p i => whenIdle p (iunlock p i)
  | .iput p i => whenIdle p (iput p i)
  | .resume p => do
    match (← get).calls p with
    | none => return ()
    | some (.ialloc k) =>
      putCall p none
      iget k
    | some (.ilock i) => ilockRead p i
    | some (.iputTrunc i) => iputTrunc p i
    | some (.iputUnlock i) => iputUnlock p i
    | some (.iputLast i) => iputLast p i

end

/-- A process other than one that puts the entry has it locked. -/
def State.InUse (s : State P) (i : Nat) : Prop := ∃ p, (s.inode i).lock = some p ∧ Call.puts i (s.calls p) = false

/-- What the callers see to: a pointer is used that there is, it is not put while the inode is locked
through it, and an inode is allocated with a type. -/
def Event.Proper (s : State P) : Event P → Prop
  | .ialloc _ _ type => type ≠ 0
  | .idup i => 0 < s.ptrs i
  | .ilock _ i => 0 < s.ptrs i
  | .iput _ i => 0 < s.ptrs i ∧ (s.InUse i → 1 < s.ptrs i)
  | _ => True

/-- The inode is allocated on disk, and the process that has allocated it has a pointer to it. -/
def State.Allocated (s : State P) (k : Key) : Prop :=
  (s.disk k).type ≠ 0 ∧ ∀ p, s.calls p ≠ some (.ialloc k)

/-- The inode is allocated, and no `iput` is about to free it. -/
def State.Live (s : State P) (k : Key) : Prop :=
  s.Allocated k ∧ ∀ p i, s.calls p = some (.iputTrunc i) → (s.inode i).key ≠ k

/-- A lookup does not follow a dangling entry. -/
def Event.Sound (s : State P) : Event P → Prop
  | .lookup _ k => s.Live k
  | _ => True

/-- The table after `iinit`, with any inodes on disk. -/
def State.init (P : Type) (disk : Key → Dinode) : State P where
  inode _ := ⟨⟨0, 0⟩, 0, none, false, 0, 0⟩
  disk := disk
  ptrs _ := 0
  calls _ := none

/-- The calls of `iput` that have a pointer to the entry. -/
def State.puts [Fintype P] (s : State P) (i : Nat) : Nat := (Finset.univ.filter fun p => Call.puts i (s.calls p)).card

/-- The outstanding pointers to an entry. -/
def State.refs [Fintype P] (s : State P) (i : Nat) : Nat := s.ptrs i + s.puts i

end PbsCow.Itable

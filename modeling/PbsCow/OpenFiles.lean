import PbsCow.Lib.Threads
import PbsCow.Proc

namespace PbsCow.OpenFiles
set_option autoImplicit true

def NOFILE : Nat := 16
def NFILE : Nat := 100

inductive FdType where
  | FD_NONE
  | FD_PIPE
  | FD_INODE
  | FD_DEVICE
  deriving DecidableEq

structure File where
  type : FdType
  ref : Int
  readable : Bool
  writable : Bool
  pipe : Nat
  ip : Nat
  off : Nat
  major : Int

structure Pipe where
  readopen : Bool
  writeopen : Bool
  deriving DecidableEq

def Pipe.shut (p : Pipe) (writable : Bool) : Pipe :=
  if writable then { p with writeopen := false } else { p with readopen := false }

/-- A page, as far as pipes go: free, given to the kernel code of a process, or a `struct pipe`. -/
inductive Page where
  | free
  | taken (t : Slot)
  | pipe (p : Pipe)

/-- The states of a slot of the process table; while it is `USED`, some process holds its lock. -/
inductive State where
  | UNUSED
  | USED (t : Slot)
  | RUNNABLE
  | ZOMBIE

/-- What the last `fileclose` of a file has still to do with the pipe of its copy `ff`. -/
inductive Closing where
  | pipeclose (pi : Nat) (writable : Bool)
  | kfree (pi : Nat)

inductive Panic where
  | filedup
  | fileclose

/-- `held` and `closing` are not in the source: the references that the kernel code of a process has
taken and not given away, less those of its slots that it has closed and not cleared, and where it is in
`fileclose`. -/
structure Mem where
  file : Nat → File
  ofile : Slot → Nat → Option Nat
  page : Nat → Page
  state : Slot → State
  held : Slot → Nat → Int
  closing : Slot → Option Closing
  panic : Option Panic

/-- The calls that touch open files, as far as they do. -/
inductive Call where
  | open (type : FdType) (ip : Nat) (major : Int) (omode : Nat)
  | dup (fd : Nat)
  | close (fd : Nat)
  | pipe
  | fork (np : Slot)
  | exit
  | wait (np : Slot)

/-- What a process does next, and what the rest of the kernel answers: whether a call in it succeeds, and
which page `kalloc` returns. -/
inductive Input where
  | call (c : Call)
  | answer (ok : Bool)
  | page (pi : Option Nat)

/-- Where the code of a slot can be: waiting for its process to run, or in its user's code. -/
inductive Label where
  | scheduled
  | user

abbrev Code := Prog Mem Input Label

namespace Mem

/-- The entry that `filealloc` finds. -/
def freeFile (s : Mem) : Option Nat := (List.range NFILE).find? fun f => (s.file f).ref == 0

/-- The slot that `fdalloc` finds. -/
def freeFd (s : Mem) (t : Slot) : Option Nat := (List.range NOFILE).find? fun fd => (s.ofile t fd).isNone

def setFile (s : Mem) (f : Nat) (x : File) : Mem := { s with file := Function.update s.file f x }

def hold (s : Mem) (t : Slot) (f : Nat) (d : Int) : Mem :=
  { s with held := Function.update s.held t (Function.update (s.held t) f (s.held t f + d)) }

def setOfile (s : Mem) (t : Slot) (fd : Nat) (x : Option Nat) : Mem :=
  { s with ofile := Function.update s.ofile t (Function.update (s.ofile t) fd x) }

def setClosing (s : Mem) (t : Slot) (c : Option Closing) : Mem := { s with closing := Function.update s.closing t c }

def setPage (s : Mem) (pi : Nat) (p : Page) : Mem := { s with page := Function.update s.page pi p }

def setState (s : Mem) (t : Slot) (x : State) : Mem := { s with state := Function.update s.state t x }

/-- `filealloc` takes the entry. -/
def take (s : Mem) (t : Slot) (f : Nat) : Mem := (s.setFile f { s.file f with ref := 1 }).hold t f 1

def dup (s : Mem) (t : Slot) (f : Nat) : Mem :=
  (s.setFile f { s.file f with ref := (s.file f).ref + 1 }).hold t f 1

/-- The pipe that is closed when the last reference to the file is. -/
def lastPipe (s : Mem) (f : Nat) : Option Closing :=
  if 0 < (s.file f).ref - 1 then none
  else if (s.file f).type = .FD_PIPE then some (.pipeclose (s.file f).pipe (s.file f).writable)
  else none

def drop (s : Mem) (t : Slot) (f : Nat) : Mem :=
  if 0 < (s.file f).ref - 1 then (s.setFile f { s.file f with ref := (s.file f).ref - 1 }).hold t f (-1)
  else ((s.setFile f { s.file f with ref := 0, type := .FD_NONE }).hold t f (-1)).setClosing t (s.lastPipe f)

/-- The slot takes over the reference. -/
def install (s : Mem) (t : Slot) (fd f : Nat) : Mem := (s.setOfile t fd (some f)).hold t f (-1)

/-- The slot is cleared; the reference that it had is the caller's. -/
def clear (s : Mem) (t : Slot) (fd : Nat) : Mem :=
  match s.ofile t fd with
  | some f => (s.setOfile t fd none).hold t f 1
  | none => s

/-- The stores of `pipealloc`. -/
def pipeinit (s : Mem) (f₀ f₁ pi : Nat) : Mem :=
  let s := s.setPage pi (.pipe ⟨true, true⟩)
  let s := s.setFile f₀ { s.file f₀ with type := .FD_PIPE, readable := true, writable := false, pipe := pi }
  s.setFile f₁ { s.file f₁ with type := .FD_PIPE, readable := false, writable := true, pipe := pi }

/-- The section of `pipeclose` under the lock of the pipe. -/
def shut (s : Mem) (t : Slot) (pi : Nat) (writable : Bool) : Mem :=
  match s.page pi with
  | .pipe p =>
    (s.setPage pi (.pipe (p.shut writable))).setClosing t
      (if (p.shut writable).readopen || (p.shut writable).writeopen then none else some (.kfree pi))
  | _ => s.setClosing t none

end Mem

/-! The code, each action being what is done under one lock or is nobody else's. -/

variable (t : Slot)

def filealloc (k : Option Nat → Code) : Code :=
  .act (fun s => some (match s.freeFile with
    | some f => s.take t f
    | none => s)) fun s => k s.freeFile

def filedup (f : Nat) (k : Code) : Code :=
  .act (fun s => some (if (s.file f).ref < 1 then { s with panic := some .filedup } else s.dup t f)) fun s =>
    if (s.file f).ref < 1 then .ret else k

def kfree (pi : Nat) (k : Code) : Code := .modify (fun s => (s.setPage pi .free).setClosing t none) k

def pipeclose (pi : Nat) (writable : Bool) (k : Code) : Code :=
  .act (fun s => some (s.shut t pi writable)) fun s =>
    match s.page pi with
    | .pipe p => if (p.shut writable).readopen || (p.shut writable).writeopen then k else kfree t pi k
    | _ => k

/-- For an inode, what is left to do is `iput`. -/
def fileclose (f : Nat) (k : Code) : Code :=
  .act (fun s => some (if (s.file f).ref < 1 then { s with panic := some .fileclose } else s.drop t f)) fun s =>
    if (s.file f).ref < 1 then .ret
    else
      match s.lastPipe f with
      | some (.pipeclose pi writable) => pipeclose t pi writable k
      | _ => k

def argfd (fd : Nat) (k : Option Nat → Code) : Code :=
  .read fun s => k (if fd < NOFILE then s.ofile t fd else none)

def fdalloc (f : Nat) (k : Option Nat → Code) : Code :=
  .act (fun s => some (match s.freeFd t with
    | some fd => s.install t fd f
    | none => s)) fun s => k (s.freeFd t)

/-- `p->ofile[fd] = 0`. -/
def clear (fd : Nat) (k : Code) : Code := .modify (fun s => s.clear t fd) k

def kalloc (k : Option Nat → Code) : Code :=
  .pick fun w =>
    match w with
    | .page (some pi) =>
      .act (fun s => match s.page pi with
        | .free => some (s.setPage pi (.taken t))
        | _ => none) fun _ => k (some pi)
    | _ => k none

def pipealloc (k : Option (Nat × Nat) → Code) : Code :=
  filealloc t fun f₀ =>
    match f₀ with
    | none => k none
    | some f₀ =>
      filealloc t fun f₁ =>
        match f₁ with
        | none => fileclose t f₀ (k none)
        | some f₁ =>
          kalloc t fun pi =>
            match pi with
            | none => fileclose t f₀ (fileclose t f₁ (k none))
            | some pi => .modify (fun s => s.pipeinit f₀ f₁ pi) (k (some (f₀, f₁)))

def sysDup (fd : Nat) (k : Code) : Code :=
  argfd t fd fun f =>
    match f with
    | none => k
    | some f =>
      fdalloc t f fun fd =>
        match fd with
        | none => k
        | some _ => filedup t f k

def sysClose (fd : Nat) (k : Code) : Code :=
  argfd t fd fun f =>
    match f with
    | none => k
    | some f => clear t fd (fileclose t f k)

/-- Whether a call of the rest of the kernel succeeds. -/
def answer (yes no : Code) : Code :=
  .pick fun w =>
    match w with
    | .answer true => yes
    | _ => no

def O_WRONLY : Nat := 1
def O_RDWR : Nat := 2

/-- `sys_open` once it has its inode, of which `type` is the type. -/
def openFile (type : FdType) (ip : Nat) (major : Int) (omode : Nat) (x : File) : File :=
  let x := if type = .FD_DEVICE then { x with type := .FD_DEVICE, major := major } else { x with type := .FD_INODE, off := 0 }
  { x with ip := ip, readable := omode &&& O_WRONLY = 0, writable := omode &&& O_WRONLY ≠ 0 ∨ omode &&& O_RDWR ≠ 0 }

def sysOpen (type : FdType) (ip : Nat) (major : Int) (omode : Nat) (k : Code) : Code :=
  answer
    (filealloc t fun f =>
      match f with
      | none => k
      | some f =>
        fdalloc t f fun fd =>
          match fd with
          | none => fileclose t f k
          | some _ => .modify (fun s => s.setFile f (openFile type ip major omode (s.file f))) k)
    k

def sysPipe (k : Code) : Code :=
  pipealloc t fun r =>
    match r with
    | none => k
    | some (rf, wf) =>
      fdalloc t rf fun fd₀ =>
        match fd₀ with
        | none => fileclose t rf (fileclose t wf k)
        | some fd₀ =>
          fdalloc t wf fun fd₁ =>
            match fd₁ with
            | none => clear t fd₀ (fileclose t rf (fileclose t wf k))
            | some fd₁ =>
              -- `copyout` of the two descriptors
              answer k (clear t fd₀ (clear t fd₁ (fileclose t rf (fileclose t wf k))))

/-- The loop of `fork` over the open files, with `n` of them left. -/
def forkLoop (np : Slot) : Nat → Code → Code
  | 0, k => k
  | n + 1, k =>
    .read fun s =>
      match s.ofile t (NOFILE - (n + 1)) with
      | none => forkLoop np n k
      | some f =>
        filedup t f
          (.modify (fun s => (s.setOfile np (NOFILE - (n + 1)) (some f)).hold t f (-1)) (forkLoop np n k))

/-- `allocproc` finds slot `np`, and `uvmcopy` may fail. -/
def fork (np : Slot) (k : Code) : Code :=
  .act (fun s => match s.state np with
    | .UNUSED => some (s.setState np (.USED t))
    | _ => none) fun _ =>
    answer
      (forkLoop t np NOFILE (.modify (fun s => s.setState np .RUNNABLE) k))
      (.modify (fun s => s.setState np .UNUSED) k)

/-- The loop of `exit` over the open files, with `n` of them left. -/
def exitLoop : Nat → Code → Code
  | 0, k => k
  | n + 1, k =>
    .read fun s =>
      match s.ofile t (NOFILE - (n + 1)) with
      | none => exitLoop n k
      | some f => fileclose t f (clear t (NOFILE - (n + 1)) (exitLoop n k))

def exit : Code := exitLoop t NOFILE (.modify (fun s => s.setState t .ZOMBIE) (.goto .scheduled))

/-- `wait` frees the slot of a child that has exited. -/
def wait (np : Slot) (k : Code) : Code :=
  .modify (fun s => match s.state np with
    | .ZOMBIE => s.setState np .UNUSED
    | _ => s) k

def body : Label → Code
  | .scheduled => .act (fun s => match s.state t with
    | .RUNNABLE => some s
    | _ => none) fun _ => .goto .user
  | .user => .pick fun w =>
    match w with
    | .call (.open type ip major omode) => sysOpen t type ip major omode (.goto .user)
    | .call (.dup fd) => sysDup t fd (.goto .user)
    | .call (.close fd) => sysClose t fd (.goto .user)
    | .call .pipe => sysPipe t (.goto .user)
    | .call (.fork np) => fork t np (.goto .user)
    | .call .exit => exit t
    | .call (.wait np) => wait np (.goto .user)
    | _ => .goto .user

/-- The table is empty, and only the first process runs. -/
def start : Threads Slot Mem Input Label where
  mem := {
    file := fun _ => ⟨.FD_NONE, 0, false, false, 0, 0, 0, 0⟩
    ofile := fun _ _ => none
    page := fun _ => .free
    state := fun t => if t.val = 0 then .RUNNABLE else .UNUSED
    held := fun _ _ => 0
    closing := fun _ => none
    panic := none }
  code := fun _ => .goto .scheduled

end PbsCow.OpenFiles

import PbsCow.Proc

namespace PbsCow
set_option autoImplicit true

/-- `readi` from a file with these contents; offsets and lengths are C `uint`s. -/
def readi (file : List Byte) (off n : Nat) : List Byte :=
  if file.length < off ∨ (off + n) % 2 ^ 32 < off then [] else (file.drop off).take n

/-- The little-endian number in `n` bytes from offset `o` on. -/
def leField (b : List Byte) (o n : Nat) : Nat :=
  ((b.drop o).take n).foldr (fun x acc => x.toNat + 256 * acc) 0

def ELF_MAGIC : Nat := 0x464C457F
def ELF_PROG_LOAD : Nat := 1

/-- The sizes of `struct elfhdr` and `struct proghdr`. -/
def elfhdrSize : Nat := 64
def proghdrSize : Nat := 56

/-- The fields of `struct elfhdr` that `exec` reads. -/
structure Elfhdr where
  magic : Nat
  entry : Nat
  phoff : Nat
  phnum : Nat

def Elfhdr.parse (b : List Byte) : Elfhdr where
  magic := leField b 0 4
  entry := leField b 24 8
  phoff := leField b 32 8
  phnum := leField b 56 2

/-- The fields of `struct proghdr` that `exec` reads. -/
structure Proghdr where
  type : Nat
  flags : Nat
  off : Nat
  vaddr : Nat
  filesz : Nat
  memsz : Nat

def Proghdr.parse (b : List Byte) : Proghdr where
  type := leField b 0 4
  flags := leField b 4 4
  off := leField b 8 8
  vaddr := leField b 16 8
  filesz := leField b 32 8
  memsz := leField b 40 8

def flags2perm (flags : Nat) : Word :=
  let perm := if flags.testBit 0 then PTE_X else 0
  if flags.testBit 1 then perm ||| PTE_W else perm

/-- The loop of `loadseg`: `n` pages from `i` on, while `i < sz`. -/
def loadsegLoop (pagetable va : Nat) (ip : List Byte) (offset sz : Nat) : Nat → Nat → Kern Int
  | 0, _ => return 0
  | n + 1, i => do
    let pa ← walkaddr pagetable (va + i)
    if pa = 0 then throw .loadsegAddressShouldExist
    let m := if sz - i < PGSIZE then sz - i else PGSIZE
    let bytes := readi ip ((offset + i) % 2 ^ 32) m
    memmoveIn pa bytes
    if bytes.length ≠ m then return -1
    loadsegLoop pagetable va ip offset sz n (i + PGSIZE)

/-- `offset` and `sz` are C `uint`s. -/
def loadseg (pagetable va : Nat) (ip : List Byte) (offset sz : Nat) : Kern Int :=
  loadsegLoop pagetable va ip (offset % 2 ^ 32) (sz % 2 ^ 32) (pagesBetween 0 (sz % 2 ^ 32)) 0

/-- The loop of `exec` over the program headers; `none` for `goto bad`, beside the size so far. -/
def loadSegments (L : Layout) (pagetable : Nat) (ip : List Byte) :
    Nat → Nat → Nat → Kern (Option Unit × Nat)
  | 0, _, sz => return (some (), sz)
  | n + 1, off, sz => do
    let b := readi ip off proghdrSize
    if b.length ≠ proghdrSize then return (none, sz)
    let ph := Proghdr.parse b
    if ph.type ≠ ELF_PROG_LOAD then
      loadSegments L pagetable ip n ((off + proghdrSize) % 2 ^ 32) sz
    else
      if ph.memsz < ph.filesz then return (none, sz)
      if (ph.vaddr + ph.memsz) % 2 ^ 64 < ph.vaddr then return (none, sz)
      let sz1 ← uvmalloc L pagetable sz ((ph.vaddr + ph.memsz) % 2 ^ 64) (flags2perm ph.flags)
      if sz1 = 0 then return (none, sz)
      if ph.vaddr % PGSIZE ≠ 0 then return (none, sz1)
      if (← loadseg pagetable ph.vaddr ip ph.off ph.filesz) < 0 then return (none, sz1)
      loadSegments L pagetable ip n ((off + proghdrSize) % 2 ^ 32) sz1

/-- Subtraction of `uint64`s. -/
@[irreducible] def subWord (a b : Nat) : Nat := (a + 2 ^ 64 - b % 2 ^ 64) % 2 ^ 64

/-- `sp -= n; sp -= sp % 16`. -/
def pushDown (sp n : Nat) : Nat :=
  let sp := subWord sp n
  sp - sp % 16

/-- Push the argument strings; the result is `sp` and `ustack`. -/
def pushStrings (L : Layout) (pagetable stackbase : Nat) :
    List (List Byte) → Nat → List Nat → Kern (Option (Nat × List Nat))
  | [], sp, ustack => return some (sp, ustack)
  | arg :: argv, sp, ustack => do
    if MAXARG ≤ ustack.length then return none
    let sp := pushDown sp (arg.length + 1)
    if sp < stackbase then return none
    if (← copyout L pagetable sp (arg ++ [0])) < 0 then return none
    pushStrings L pagetable stackbase argv sp (ustack ++ [sp])

/-- The bytes of a `uint64`. -/
def wordBytes (n : Nat) : List Byte := (List.range 8).map fun i => BitVec.ofNat 8 (n / 256 ^ i)

/-- Push the arguments and the array that points to them; the result is `sp`. -/
def pushArgs (L : Layout) (pagetable sz : Nat) (argv : List (List Byte)) : Kern (Option Nat) := do
  let stackbase := sz - PGSIZE
  match ← pushStrings L pagetable stackbase argv sz [] with
  | none => return none
  | some (sp, ustack) =>
    let sp := pushDown sp ((ustack.length + 1) * 8)
    if sp < stackbase then return none
    if (← copyout L pagetable sp ((ustack ++ [0]).flatMap wordBytes)) < 0 then return none
    return some sp

/-- A user image that `exec` is ready to commit to. -/
structure Image where
  pagetable : Nat
  sz : Nat
  entry : Nat
  sp : Nat

/-- Allocate the guard page and the stack above `sz`, and push the arguments; `none` for
`goto bad`, beside the size to free. -/
def addStack (L : Layout) (pagetable sz : Nat) (argv : List (List Byte)) :
    Kern (Option Nat × Nat) := do
  let sz := PGROUNDUP sz
  let sz1 ← uvmalloc L pagetable sz (sz + 2 * PGSIZE) PTE_W
  if sz1 = 0 then return (none, sz)
  uvmclear pagetable (sz1 - 2 * PGSIZE)
  return (← pushArgs L pagetable sz1 argv, sz1)

/-- Fill the new page table. -/
def fillImage (L : Layout) (pagetable : Nat) (ip : List Byte) (elf : Elfhdr)
    (argv : List (List Byte)) : Kern (Option Nat × Nat) := do
  let (ok, sz) ← loadSegments L pagetable ip elf.phnum (elf.phoff % 2 ^ 32) 0
  if ok.isNone then return (none, sz)
  addStack L pagetable sz argv

/-- `exec` up to the point where it commits to the new image, with its error exits. -/
def buildImage (L : Layout) (trapframe : Nat) (ip : List Byte) (argv : List (List Byte)) :
    Kern (Option Image) := do
  let b := readi ip 0 elfhdrSize
  if b.length ≠ elfhdrSize then return none
  let elf := Elfhdr.parse b
  if elf.magic ≠ ELF_MAGIC then return none
  let pagetable ← procPagetable L trapframe
  if pagetable = 0 then return none
  match ← fillImage L pagetable ip elf argv with
  | (none, sz) =>
    procFreepagetable L pagetable sz
    return none
  | (some sp, sz) => return some ⟨pagetable, sz, elf.entry, sp⟩

/-- `ip` is what `namei` finds. -/
def exec (L : Layout) (p : Slot) (ip : Option (List Byte)) (argv : List (List Byte)) : Ker Int := do
  match ip with
  | none => return -1
  | some ip =>
    let q := (← get).proc p
    match ← onMem (buildImage L q.trapframe ip argv) with
    | none => return -1
    | some image =>
      onMem (storeWord (q.trapframe + tfA1) (BitVec.ofNat 64 image.sp))
      setProc p fun q => { q with pagetable := image.pagetable, sz := image.sz }
      onMem (storeWord (q.trapframe + tfEpc) (BitVec.ofNat 64 image.entry))
      onMem (storeWord (q.trapframe + tfSp) (BitVec.ofNat 64 image.sp))
      onMem (procFreepagetable L q.pagetable q.sz)
      return argv.length

def fetchaddr (p : Slot) (addr : Nat) : Ker (Option Nat) := do
  let q := (← get).proc p
  if q.sz ≤ addr ∨ q.sz < (addr + 8) % 2 ^ 64 then return none
  let (ret, b) ← onMem (copyin q.pagetable addr 8)
  if ret ≠ 0 then return none
  return some (leField b 0 8)

/-- The loop of `sys_exec` over the user's `argv`; `i` of the pointers have been read, and `n` are
left in the kernel's array. The strings are also copied to pages of their own. -/
def fetchArgs (p : Slot) (uargv : Nat) :
    Nat → Nat → List (List Byte) → Ker (Option (List (List Byte)))
  | 0, _, _ => return none
  | n + 1, i, argv => do
    match ← fetchaddr p ((uargv + 8 * i) % 2 ^ 64) with
    | none => return none
    | some uarg =>
      if uarg = 0 then return some argv
      let buf ← onMem kalloc
      if buf = 0 then return none
      modify fun t => { t with argv := t.argv ++ [buf] }
      let pagetable := ((← get).proc p).pagetable
      let (ret, str) ← onMem (copyinstr pagetable uarg PGSIZE)
      onMem (memmoveIn buf str)
      if ret < 0 then return none
      fetchArgs p uargv n (i + 1) (argv ++ [str.dropLast])

def kfreeAll (L : Layout) : List Nat → Kern Unit
  | [] => return ()
  | pa :: rest => do
    kfree L pa
    kfreeAll L rest

def freeArgs (L : Layout) : Ker Unit := do
  let argv := (← get).argv
  modify fun t => { t with argv := [] }
  onMem (kfreeAll L argv)

/-- `namei` looks the path up in the file system. -/
def sysExec (L : Layout) (namei : List Byte → Option (List Byte)) (p : Slot) (path uargv : Nat) :
    Ker Int := do
  let pagetable := ((← get).proc p).pagetable
  let (ret, path) ← onMem (copyinstr pagetable path MAXPATH)
  if ret < 0 then return -1
  match ← fetchArgs p uargv MAXARG 0 [] with
  | none =>
    freeArgs L
    return -1
  | some argv =>
    let ret ← exec L p (namei path) argv
    freeArgs L
    return ret

end PbsCow

import PbsCow.Files
import PbsCow.Lib.BlockBytes

namespace PbsCow.Blocks
open Files (IPB BPB DIRSIZ T_DIR direntSize direntInum)
set_option autoImplicit true

def BSIZE : Nat := 1024
def NDIRECT : Nat := 12
def NINDIRECT : Nat := 256
def MAXFILE : Nat := NDIRECT + NINDIRECT
def MAXOPBLOCKS : Nat := 10

structure Superblock where
  size : Nat
  ninodes : Nat
  inodestart : Nat
  bmapstart : Nat

structure Dinode where
  type : BitVec 16
  nlink : BitVec 16
  size : Nat
  addrs : Nat → Nat

def Dinode.empty : Dinode := ⟨0, 0, 0, fun _ => 0⟩

def Dinode.setAddr (d : Dinode) (i addr : Nat) : Dinode := { d with addrs := Function.update d.addrs i addr }

/-- The entry of the inode table for an inode, with its copy of the inode on disk. -/
structure Inode where
  ref : Nat
  valid : Bool
  dinode : Dinode

/-- `data` is what the log or the disk holds of a block, and `buf` is a buffer in the cache whose block
has been changed without `log_write`. The blocks of the bitmap and of the inodes are tables of their
own. `logged` is what the transaction has logged, of which the log has `room` for so many blocks, and
`ended` what the transactions before it had logged. -/
structure State where
  sb : Superblock
  data : Nat → Block
  buf : Nat → Option Block
  bitmap : Nat → Bool
  dinode : Nat → Dinode
  inode : Nat → Inode
  logged : List Nat
  room : Nat
  ended : List (List Nat)

inductive Stop where
  | tooBigATransaction
  | freeingFreeBlock
  | bmapOutOfRange
  | ilock
  | ilockNoType
  | dirlookupNotDir
  | dirlookupRead
  | dirlinkRead
  | unlinkWritei

abbrev Fs := StateT State (Except Stop)

/-- What `bread` finds. -/
def State.bread (s : State) (b : Nat) : Block := (s.buf b).getD (s.data b)

def State.put (s : State) (b : Nat) (bp : Block) : State := { s with buf := Function.update s.buf b (some bp) }

/-- A change to the buffer of a block. -/
def setBuf (b : Nat) (f : Block → Block) : Fs Unit := modify fun s => s.put b (f (s.bread b))

/-- A change to the bitmap. -/
def State.mark (s : State) (b : Nat) (used : Bool) : State :=
  { s with bitmap := Function.update s.bitmap b used }

/-- The block is in the log, where it is not already. -/
def State.log (s : State) (b : Nat) : State :=
  { s with
    data := Function.update s.data b (s.bread b)
    buf := Function.update s.buf b none
    logged := if b ∈ s.logged then s.logged else s.logged ++ [b] }

def logWrite (b : Nat) : Fs Unit := do
  let s ← get
  if s.room ≤ s.logged.length then throw .tooBigATransaction
  set (s.log b)

def beginOp : Fs Unit := modify fun s => { s with logged := [] }

def endOp : Fs Unit := modify fun s => { s with logged := [], ended := s.ended ++ [s.logged] }

def IBLOCK (i : Nat) (sb : Superblock) : Nat := i / IPB + sb.inodestart
def BBLOCK (b : Nat) (sb : Superblock) : Nat := b / BPB + sb.bmapstart

def bzero (b : Nat) : Fs Unit := do
  setBuf b fun _ => Block.zero
  logWrite b

/-- The two loops go through the blocks in order. -/
def balloc : Fs Nat := do
  let s ← get
  match (List.range s.sb.size).find? fun b => !s.bitmap b with
  | some b =>
    modify fun s => s.mark b true
    logWrite (BBLOCK b s.sb)
    bzero b
    return b
  | none => return 0

def bfree (b : Nat) : Fs Unit := do
  let s ← get
  if !s.bitmap b then throw .freeingFreeBlock
  modify fun s => s.mark b false
  logWrite (BBLOCK b s.sb)

def State.setInode (s : State) (ip : Nat) (i : Inode) : State :=
  { s with inode := Function.update s.inode ip i }

def State.setDinode (s : State) (ip : Nat) (f : Dinode → Dinode) : State :=
  s.setInode ip { s.inode ip with dinode := f (s.inode ip).dinode }

def setDinode (ip : Nat) (f : Dinode → Dinode) : Fs Unit := modify fun s => s.setDinode ip f

def setAddr (ip i addr : Nat) : Fs Unit := setDinode ip fun d => d.setAddr i addr

def iupdate (ip : Nat) : Fs Unit := do
  modify fun s => { s with dinode := Function.update s.dinode ip (s.inode ip).dinode }
  logWrite (IBLOCK ip (← get).sb)

/-- `ip->addrs[i]`, allocating it if necessary. -/
def mapAddr (ip i : Nat) : Fs Nat := do
  let addr := ((← get).inode ip).dinode.addrs i
  if addr ≠ 0 then return addr
  else
    let addr ← balloc
    if addr = 0 then return 0
    else
      setAddr ip i addr
      return addr

/-- Entry `bn` of the indirect block `ind`, allocating it if necessary. -/
def mapEntry (ind bn : Nat) : Fs Nat := do
  let addr := ((← get).bread ind).uint bn
  if addr ≠ 0 then return addr
  else
    let addr ← balloc
    if addr = 0 then return 0
    else
      setBuf ind fun a => a.setUint bn addr
      logWrite ind
      return addr

def bmap (ip bn : Nat) : Fs Nat :=
  if bn < NDIRECT then mapAddr ip bn
  else if bn - NDIRECT < NINDIRECT then do
    let ind ← mapAddr ip NDIRECT
    if ind = 0 then return 0
    else mapEntry ind (bn - NDIRECT)
  else throw .bmapOutOfRange

def freeDirect (ip : Nat) : List Nat → Fs Unit
  | [] => return ()
  | i :: is => do
    let addr := ((← get).inode ip).dinode.addrs i
    if addr ≠ 0 then
      bfree addr
      setAddr ip i 0
    freeDirect ip is

def freeEntries (a : Block) : List Nat → Fs Unit
  | [] => return ()
  | j :: js => do
    if a.uint j ≠ 0 then bfree (a.uint j)
    freeEntries a js

def freeIndirect (ip : Nat) : Fs Unit := do
  let s ← get
  let ind := (s.inode ip).dinode.addrs NDIRECT
  if ind ≠ 0 then
    freeEntries (s.bread ind) (List.range NINDIRECT)
    bfree ind
    setAddr ip NDIRECT 0

def itrunc (ip : Nat) : Fs Unit := do
  freeDirect ip (List.range NDIRECT)
  freeIndirect ip
  setDinode ip fun d => { d with size := 0 }
  iupdate ip

def iget (inum : Nat) : Fs Nat := do
  modify fun s =>
    let ip := s.inode inum
    s.setInode inum (if 0 < ip.ref then { ip with ref := ip.ref + 1 } else { ip with ref := 1, valid := false })
  return inum

/-- The search starts at inode 1. -/
def ialloc (type : BitVec 16) : Fs Nat := do
  let s ← get
  match (List.range' 1 (s.sb.ninodes - 1)).find? fun inum => (s.dinode inum).type = 0 with
  | some inum =>
    modify fun s => { s with dinode := Function.update s.dinode inum { Dinode.empty with type := type } }
    logWrite (IBLOCK inum s.sb)
    iget inum
  | none => return 0

def ilock (ip : Nat) : Fs Unit := do
  let s ← get
  if (s.inode ip).ref < 1 then throw .ilock
  if !(s.inode ip).valid then
    modify fun s => s.setInode ip { s.inode ip with dinode := s.dinode ip, valid := true }
    if (s.dinode ip).type = 0 then throw .ilockNoType

def iput (ip : Nat) : Fs Unit := do
  let i := (← get).inode ip
  if i.ref = 1 ∧ i.valid ∧ i.dinode.nlink = 0 then
    itrunc ip
    setDinode ip fun d => { d with type := 0 }
    iupdate ip
    modify fun s => s.setInode ip { s.inode ip with valid := false }
  modify fun s => s.setInode ip { s.inode ip with ref := (s.inode ip).ref - 1 }

/-- Where `either_copyin` copies from: the memory of the kernel, or the pages of the process. -/
inductive Src where
  | kernel (mem : Nat → Byte)
  | user (page : Nat → Option (Nat → Byte))

/-- The bytes that `copyin` moves, page by page, and whether it succeeds. -/
def copyin (page : Nat → Option (Nat → Byte)) : Nat → Nat → Nat → List Byte × Bool
  | 0, _, _ => ([], true)
  | fuel + 1, srcva, len =>
    if len = 0 then ([], true)
    else match page (srcva / PGSIZE) with
      | none => ([], false)
      | some p =>
        let n := min len (PGSIZE - srcva % PGSIZE)
        let rest := copyin page fuel (srcva + n) (len - n)
        ((List.range n).map (fun i => p (srcva % PGSIZE + i)) ++ rest.1, rest.2)

def eitherCopyin : Src → Nat → Nat → List Byte × Bool
  | .kernel mem, src, len => ((List.range len).map fun i => mem (src + i), true)
  | .user page, src, len => copyin page len src len

/-- The loop of `readi`; `out` says whether `either_copyout` can copy so many bytes to an address. -/
def readLoop (ip : Nat) (out : Nat → Nat → Bool) : Nat → Nat → Nat → Nat → List Byte → Fs (Option (List Byte))
  | 0, _, _, _, bytes => return some bytes
  | fuel + 1, dst, off, left, bytes => do
    if left = 0 then return some bytes
    else
      let addr ← bmap ip (off / BSIZE)
      if addr = 0 then return some bytes
      else
        let bp := (← get).bread addr
        let m := min left (BSIZE - off % BSIZE)
        if out dst m then readLoop ip out fuel (dst + m) (off + m) (left - m) (bytes ++ bp.read (off % BSIZE) m)
        else return none

/-- The bytes that `readi` has copied out, or none where it returns `-1`. -/
def readi (ip : Nat) (out : Nat → Nat → Bool) (dst : Nat) (off n : BitVec 32) : Fs (Option (List Byte)) := do
  let size := ((← get).inode ip).dinode.size
  if size < off.toNat ∨ off + n < off then return some []
  else
    let n := if size < (off + n).toNat then size - off.toNat else n.toNat
    readLoop ip out n dst off.toNat n []

/-- The loop of `writei`, which returns `tot`. -/
def writeLoop (ip : Nat) (src : Src) (addr : Nat) : Nat → Nat → Nat → Nat → Fs Nat
  | 0, _, _, tot => return tot
  | fuel + 1, off, left, tot => do
    if left = 0 then return tot
    else
      let b ← bmap ip (off / BSIZE)
      if b = 0 then return tot
      else
        let m := min left (BSIZE - off % BSIZE)
        let copied := eitherCopyin src (addr + tot) m
        setBuf b fun bp => bp.write (off % BSIZE) copied.1
        if copied.2 then
          logWrite b
          writeLoop ip src addr fuel (off + m) (left - m) (tot + m)
        else return tot

def writei (ip : Nat) (src : Src) (addr : Nat) (off n : BitVec 32) : Fs Int := do
  let size := ((← get).inode ip).dinode.size
  if size < off.toNat ∨ off + n < off then return -1
  else if MAXFILE * BSIZE < (off + n).toNat then return -1
  else
    let tot ← writeLoop ip src addr n.toNat off.toNat n.toNat 0
    if size < off.toNat + tot then setDinode ip fun d => { d with size := off.toNat + tot }
    iupdate ip
    return tot

end PbsCow.Blocks

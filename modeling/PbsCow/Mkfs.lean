import PbsCow.Directory
import PbsCow.Lib.BlockBytes

namespace PbsCow.Mkfs
open Blocks (BSIZE NDIRECT NINDIRECT MAXFILE MAXOPBLOCKS IBLOCK BBLOCK Superblock dirent)
open Files (IPB BPB ROOTINO direntSize)
set_option autoImplicit true

def FSSIZE : Nat := 2000
def NINODES : Nat := 200
def LOGSIZE : Nat := MAXOPBLOCKS * 3
def FSMAGIC : Nat := 0x10203040
def T_DIR : Nat := 1
def T_FILE : Nat := 2

def nbitmap : Nat := FSSIZE / (BSIZE * 8) + 1
def ninodeblocks : Nat := NINODES / IPB + 1
def nlog : Nat := LOGSIZE
def nmeta : Nat := 2 + nlog + ninodeblocks + nbitmap
def nblocks : Nat := FSSIZE - nmeta

def sb : Superblock where
  size := FSSIZE
  ninodes := NINODES
  inodestart := 2 + nlog
  bmapstart := 2 + nlog + ninodeblocks

/-- The image, which has so many sectors, and the two counters. -/
structure State where
  disk : Nat → Block
  sectors : Nat
  freeinode : Nat
  freeblock : Nat

/-- Why `mkfs` exits with status 1 or aborts. -/
inductive Exit where
  | read
  | rootino
  | slash
  | «open»
  | fbn
  | used

abbrev Sys := StateT State (Except Exit)

def wsect (sec : Nat) (buf : Block) : Sys Unit :=
  modify fun s => { s with disk := Function.update s.disk sec buf, sectors := max s.sectors (sec + 1) }

/-- There is nothing to read past the end of the image. -/
def rsect (sec : Nat) : Sys Block := do
  let s ← get
  if s.sectors ≤ sec then throw .read
  return s.disk sec

/-- The size of `struct dinode`. A dinode is its bytes. -/
def dinodeSize : Nat := 64

def winode (inum : Nat) (ip : Block) : Sys Unit := do
  let bn := IBLOCK inum sb
  let buf ← rsect bn
  wsect bn (buf.write (dinodeSize * (inum % IPB)) (ip.read 0 dinodeSize))

def rinode (inum : Nat) : Sys Block := do
  let buf ← rsect (IBLOCK inum sb)
  return buf.sub (dinodeSize * (inum % IPB)) dinodeSize

section dinode

variable (din : Block)

/-- The fields of `struct dinode`, with the stores to them. -/
def dinType : Nat := din.ushort 0
def dinNlink : Nat := din.ushort 3
def dinSize : Nat := din.uint 2
def dinAddr (k : Nat) : Nat := din.uint (3 + k)
def setSize (v : Nat) : Block := din.setUint 2 v
def setAddr (k v : Nat) : Block := din.setUint (3 + k) v

end dinode

def ialloc (type : Nat) : Sys Nat := do
  let inum := (← get).freeinode
  modify fun s => { s with freeinode := s.freeinode + 1 }
  winode inum (setSize ((Block.zero.setUshort 0 type).setUshort 3 1) 0)
  return inum

/-- `freeblock++` -/
def nextBlock : Sys Nat := do
  let b := (← get).freeblock
  modify fun s => { s with freeblock := s.freeblock + 1 }
  return b

/-- `din.addrs[k]`, after it has been given a block where it had none. -/
def placeAddr (din : Block) (k : Nat) : Sys Block := do
  if dinAddr din k = 0 then
    let b ← nextBlock
    return setAddr din k b
  else return din

/-- The sector for block `fbn` of a file, and the dinode. -/
def place (din : Block) (fbn : Nat) : Sys (Block × Nat) := do
  if fbn < NDIRECT then
    let din ← placeAddr din fbn
    return (din, dinAddr din fbn)
  else
    let din ← placeAddr din NDIRECT
    let indirect ← rsect (dinAddr din NDIRECT)
    if indirect.uint (fbn - NDIRECT) = 0 then
      let b ← nextBlock
      let indirect := indirect.setUint (fbn - NDIRECT) b
      wsect (dinAddr din NDIRECT) indirect
      return (din, indirect.uint (fbn - NDIRECT))
    else return (din, indirect.uint (fbn - NDIRECT))

/-- The loop of `iappend`, which ends with the dinode and `off`. -/
def appendLoop : Nat → Block → Nat → List Byte → Sys (Block × Nat)
  | 0, din, off, _ => return (din, off)
  | fuel + 1, din, off, p => do
    if p.length = 0 then return (din, off)
    else
      let fbn := off / BSIZE
      if MAXFILE ≤ fbn then throw .fbn
      let (din, x) ← place din fbn
      let n1 := min p.length ((fbn + 1) * BSIZE - off)
      let buf ← rsect x
      wsect x (buf.write (off - fbn * BSIZE) (p.take n1))
      appendLoop fuel din (off + n1) (p.drop n1)

def iappend (inum : Nat) (p : List Byte) : Sys Unit := do
  let din ← rinode inum
  let (din, off) ← appendLoop p.length din (dinSize din) p
  winode inum (setSize din off)

/-- The loop that sets the bits of the first blocks. -/
def setBits (buf : Block) : Nat → Block
  | 0 => buf
  | i + 1 =>
    let buf := setBits buf i
    Function.update buf (i / 8) (buf (i / 8) ||| (1 : Byte) <<< (i % 8))

def balloc (used : Nat) : Sys Unit := do
  if BSIZE * 8 ≤ used then throw .used
  wsect sb.bmapstart (setBits Block.zero used)

/-- An input file: its argument, and what the calls of `read` return if it can be opened. -/
structure Input where
  argv : List Byte
  reads : Option (List (List Byte))

def iappends (inum : Nat) : List (List Byte) → Sys Unit
  | [] => return ()
  | buf :: bufs => do
    iappend inum buf
    iappends inum bufs

/-- The characters of `user/`, `/` and `_`. -/
def user : List Byte := [117, 115, 101, 114, 47]
def slash : Byte := 47
def underscore : Byte := 95

def dropUser (argv : List Byte) : List Byte := if user <+: argv then argv.drop 5 else argv

def dropUnderscore (shortname : List Byte) : List Byte :=
  if shortname.head? = some underscore then shortname.drop 1 else shortname

/-- The name that the file gets. -/
def Input.shortname (file : Input) : List Byte := dropUnderscore (dropUser file.argv)

def addFile (rootino : Nat) (file : Input) : Sys Unit := do
  if slash ∈ dropUser file.argv then throw .slash
  match file.reads with
  | none => throw .open
  | some bufs =>
    let inum ← ialloc T_FILE
    iappend rootino (dirent inum fun i => file.shortname.getD i 0)
    iappends inum bufs

def addFiles (rootino : Nat) : List Input → Sys Unit
  | [] => return ()
  | file :: files => do
    addFile rootino file
    addFiles rootino files

def zeroSects : List Nat → Sys Unit
  | [] => return ()
  | sec :: secs => do
    wsect sec Block.zero
    zeroSects secs

/-- `struct superblock`, in a block of zeroes. -/
def sbBlock : Block :=
  (((((((Block.zero.setUint 0 FSMAGIC).setUint 1 FSSIZE).setUint 2 nblocks).setUint 3 NINODES).setUint 4 nlog).setUint 5
    2).setUint 6 sb.inodestart).setUint 7 sb.bmapstart

/-- `main` from the super block on. -/
def build (files : List Input) : Sys Unit := do
  wsect 1 sbBlock
  let rootino ← ialloc T_DIR
  if rootino ≠ ROOTINO then throw .rootino
  iappend rootino (dirent rootino fun i => [46].getD i 0)
  iappend rootino (dirent rootino fun i => [46, 46].getD i 0)
  addFiles rootino files
  let din ← rinode rootino
  winode rootino (setSize din ((dinSize din / BSIZE + 1) * BSIZE))
  balloc (← get).freeblock

/-- `main`, once the image has been opened and truncated. -/
def main (files : List Input) : Sys Unit := do
  modify fun s => { s with freeblock := nmeta }
  zeroSects (List.range FSSIZE)
  build files

/-- Nothing has been written yet. -/
def start : State := ⟨fun _ => Block.zero, 0, 1, 0⟩

end PbsCow.Mkfs

namespace PbsCow.Blocks
open Files (IPB BPB)

def readsb (b : Block) : Superblock := ⟨b.uint 1, b.uint 3, b.uint 6, b.uint 7⟩

/-- A copy of an inode from the block that it is in. -/
def dinodeAt (sb : Superblock) (disk : Nat → Block) (inum : Nat) : Dinode :=
  let dip := (disk (IBLOCK inum sb)).sub (Mkfs.dinodeSize * (inum % IPB)) Mkfs.dinodeSize
  ⟨BitVec.ofNat 16 (dip.ushort 0), BitVec.ofNat 16 (dip.ushort 3), dip.uint 2,
    fun k => if k ≤ NDIRECT then dip.uint (3 + k) else 0⟩

/-- The bit of a block in the bitmap. -/
def bitOf (sb : Superblock) (disk : Nat → Block) (b : Nat) : Bool :=
  let bi := b % BPB
  let m : Byte := 1 <<< (bi % 8)
  disk (BBLOCK b sb) (bi / 8) &&& m != 0

/-- The file system that the kernel finds on an image whose log is empty; `fsinit` panics if the magic number is not
there. -/
def fsinit (disk : Nat → Block) : Option State :=
  let sb := readsb (disk 1)
  if (disk 1).uint 0 ≠ Mkfs.FSMAGIC then none
  else some
    { sb := sb
      data := disk
      buf := fun _ => none
      bitmap := bitOf sb disk
      dinode := fun i => if i < sb.ninodes then dinodeAt sb disk i else Dinode.empty
      inode := fun _ => ⟨0, false, Dinode.empty⟩
      logged := []
      room := min Mkfs.LOGSIZE ((disk 1).uint 4 - 1)
      ended := [] }

end PbsCow.Blocks

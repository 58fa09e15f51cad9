import PbsCow.Exec
import PbsCow.Lib.Follows
import PbsCow.Log

namespace PbsCow.Files
set_option autoImplicit true

def NINODE : Nat := 50
def DIRSIZ : Nat := 14
def ROOTINO : Nat := 1
def T_DIR : BitVec 16 := 1

/-- The size of `struct dirent`. -/
def direntSize : Nat := 16

/-- Inodes in a block, and bits in one. -/
def IPB : Nat := 16
def BPB : Nat := 8192

/-- An inode: what `readi` reads from it, and the blocks that it occupies. -/
structure Dinode where
  type : BitVec 16
  nlink : BitVec 16
  data : List Byte
  blocks : List Nat

/-- `struct inode`, with its copy of the inode on disk. -/
structure Inode where
  inum : Nat
  ref : Int
  locked : Bool
  valid : Bool
  dinode : Dinode

/-- The inode table, the log, and the inodes and the bitmap on disk. -/
structure State where
  inode : Nat → Inode
  log : Log.State
  disk : Nat → Dinode
  bitmap : Nat → Bool
  inodestart : Nat
  bmapstart : Nat

/-- Why the code of the file system does not return. `waits`: it sleeps until another process has
given back a sleep-lock or committed. -/
inductive Stop where
  | waits
  | log (e : Log.Panic)
  | igetNoInodes
  | ilock
  | ilockNoType
  | iunlock
  | schedLocks
  | freeingFreeBlock
  | dirlookupNotDir
  | dirlookupRead

abbrev Fs := StateT State (Except Stop)

def onLog (x : Log.Sys α) : Fs α := embed State.log (fun log s => { s with log := log }) .log x

def setInode (i : Nat) (f : Inode → Inode) : Fs Unit :=
  modify fun s => { s with inode := Function.update s.inode i (f (s.inode i)) }

def beginOp : Fs Unit := do
  if !(← onLog Log.beginOp) then throw .waits

def endOp : Fs Unit := do
  if ← onLog Log.endOp then
    onLog Log.commit
    onLog Log.endCommit

def iupdate (i : Nat) : Fs Unit := do
  let ip := (← get).inode i
  modify fun s => { s with disk := Function.update s.disk ip.inum ip.dinode }
  onLog (Log.logWrite (ip.inum / IPB + (← get).inodestart))

def iget (inum : Nat) : Fs Nat := do
  let s ← get
  match (List.range NINODE).find? fun i => (s.inode i).ref > 0 ∧ (s.inode i).inum = inum with
  | some i =>
    setInode i fun ip => { ip with ref := ip.ref + 1 }
    return i
  | none =>
    match (List.range NINODE).find? fun i => (s.inode i).ref = 0 with
    | none => throw .igetNoInodes
    | some i =>
      setInode i fun ip => { ip with inum := inum, ref := 1, valid := false }
      return i

def idup (i : Nat) : Fs Nat := do
  setInode i fun ip => { ip with ref := ip.ref + 1 }
  return i

def ilock (i : Nat) : Fs Unit := do
  let s ← get
  if (s.inode i).ref < 1 then throw .ilock
  if (s.inode i).locked then throw .waits
  setInode i fun ip => { ip with locked := true }
  if !(s.inode i).valid then
    let dip := s.disk (s.inode i).inum
    setInode i fun ip => { ip with dinode := dip, valid := true }
    if dip.type = 0 then throw .ilockNoType

def iunlock (i : Nat) : Fs Unit := do
  let ip := (← get).inode i
  if !ip.locked ∨ ip.ref < 1 then throw .iunlock
  setInode i fun ip => { ip with locked := false }

def bfree (b : Nat) : Fs Unit := do
  let s ← get
  if !s.bitmap b then throw .freeingFreeBlock
  modify fun s => { s with bitmap := Function.update s.bitmap b false }
  onLog (Log.logWrite (b / BPB + s.bmapstart))

def bfreeAll : List Nat → Fs Unit
  | [] => return ()
  | b :: blocks => do
    bfree b
    bfreeAll blocks

def itrunc (i : Nat) : Fs Unit := do
  bfreeAll ((← get).inode i).dinode.blocks
  setInode i fun ip => { ip with dinode := { ip.dinode with data := [], blocks := [] } }
  iupdate i

/-- To sleep on the lock of the inode, with `itable.lock` held, would be a panic in `sched`. -/
def iput (i : Nat) : Fs Unit := do
  let ip := (← get).inode i
  if ip.ref = 1 ∧ ip.valid ∧ ip.dinode.nlink = 0 then
    if ip.locked then throw .schedLocks
    setInode i fun ip => { ip with locked := true }
    itrunc i
    setInode i fun ip => { ip with dinode := { ip.dinode with type := 0 } }
    iupdate i
    setInode i fun ip => { ip with valid := false, locked := false }
  setInode i fun ip => { ip with ref := ip.ref - 1 }

def iunlockput (i : Nat) : Fs Unit := do
  iunlock i
  iput i

/-- `inum` and `name` of a `struct dirent`. -/
def direntInum (de : List Byte) : Nat := leField de 0 2

def direntName (de : List Byte) : List Byte := (de.drop 2).takeWhile (· ≠ 0)

/-- The loop of `dirlookup`; `n` entries are left. -/
def dirlookupLoop (i : Nat) (name : List Byte) : Nat → Nat → Fs (Option (Nat × Nat))
  | 0, _ => return none
  | n + 1, off => do
    let de := readi ((← get).inode i).dinode.data off direntSize
    if de.length ≠ direntSize then throw .dirlookupRead
    if direntInum de ≠ 0 ∧ direntName de = name then
      let next ← iget (direntInum de)
      return some (next, off)
    dirlookupLoop i name n (off + direntSize)

/-- The result is the inode and the offset of its entry. -/
def dirlookup (i : Nat) (name : List Byte) : Fs (Option (Nat × Nat)) := do
  let dp := ((← get).inode i).dinode
  if dp.type ≠ T_DIR then throw .dirlookupNotDir
  dirlookupLoop i name ((dp.data.length + (direntSize - 1)) / direntSize) 0

def slash : Byte := 0x2F

/-- The next element of a path, and the path after it. -/
def skipelem (path : List Byte) : Option (List Byte × List Byte) :=
  let s := path.dropWhile (· = slash)
  if s = [] then none
  else some ((s.takeWhile (· ≠ slash)).take DIRSIZ, (s.dropWhile (· ≠ slash)).dropWhile (· = slash))

theorem skipelem_lt (h : skipelem path = some (name, rest)) : rest.length < path.length := by
  have hle (p : Byte → Bool) (l : List Byte) : (l.dropWhile p).length ≤ l.length :=
    (List.dropWhile_sublist p).length_le
  rw [skipelem] at h
  have hs := hle (· = slash) path
  cases hd : path.dropWhile (· = slash) with
  | nil => simp [hd] at h
  | cons x s =>
    have hx : x ≠ slash := by
      have hhead := List.head?_dropWhile_not (fun b => decide (b = slash)) path
      rw [hd] at hhead
      simpa using hhead
    rw [hd, List.length_cons] at hs
    rw [hd, if_neg (List.cons_ne_nil x s), List.dropWhile_cons_of_pos (by simpa using hx)] at h
    injection h with h
    injection h with _ h
    rw [← h]
    have h1 := hle (· = slash) (s.dropWhile (· ≠ slash))
    have h2 := hle (· ≠ slash) s
    omega

/-- The loop of `namex`; the result is the inode and, for the inode of the parent, the last element. -/
def namexLoop (nameiparent : Bool) (ip : Nat) (path name : List Byte) : Fs (Option (Nat × List Byte)) :=
  match _h : skipelem path with
  | none => do
    if nameiparent then
      iput ip
      return none
    return some (ip, name)
  | some (name, rest) => do
    ilock ip
    if ((← get).inode ip).dinode.type ≠ T_DIR then
      iunlockput ip
      return none
    if nameiparent ∧ rest = [] then
      iunlock ip
      return some (ip, name)
    match ← dirlookup ip name with
    | none =>
      iunlockput ip
      return none
    | some (next, _) =>
      iunlockput ip
      namexLoop nameiparent next rest name
termination_by path.length
decreasing_by exact skipelem_lt _h

/-- `cwd` is the current directory of the process. -/
def namex (cwd : Nat) (nameiparent : Bool) (path : List Byte) : Fs (Option (Nat × List Byte)) := do
  let ip ← (if path.head? = some slash then iget ROOTINO else idup cwd)
  namexLoop nameiparent ip path []

def namei (cwd : Nat) (path : List Byte) : Fs (Option Nat) := do
  return (← namex cwd false path).map Prod.fst

def nameiparent (cwd : Nat) (path : List Byte) : Fs (Option (Nat × List Byte)) := namex cwd true path

end PbsCow.Files

import PbsCow.FileRefs
import PbsCow.Wait

namespace PbsCow
set_option autoImplicit true

/-- The kernel with its file system, and the fields `cwd` and `name` of its processes. -/
structure World where
  sys : Sys
  files : Files.State
  cwd : Slot → Nat
  name : Slot → List Byte

namespace World

inductive Stop where
  | mem (e : Panic)
  | files (e : Files.Stop)

abbrev Code := StateT World (Except Stop)

def onSys (x : Ker α) : Code α := embed World.sys (fun t w => { w with sys := t }) .mem x

def onFiles (x : Files.Fs α) : Code α := embed World.files (fun s w => { w with files := s }) .files x

/-- `goto bad`; `ip` is the inode that is still locked. -/
def bad (L : Layout) (pagetable sz : Nat) (ip : Option Nat) : Code Int := do
  if pagetable ≠ 0 then onSys (onMem (procFreepagetable L pagetable sz))
  match ip with
  | none => return -1
  | some ip =>
    onFiles (Files.iunlockput ip)
    onFiles Files.endOp
    return -1

/-- `safestrcpy(p->name, last, sizeof(p->name))`, where `last` comes after the last slash. -/
def saveName (p : Slot) (path : List Byte) : Code Unit :=
  modify fun w => { w with
    name := Function.update w.name p ((path.reverse.takeWhile (· ≠ Files.slash)).reverse.take 15) }

/-- `exec` from the point where it has locked the inode. -/
def execInode (L : Layout) (p : Slot) (path : List Byte) (argv : List (List Byte)) (ip : Nat) : Code Int := do
  let w ← get
  let q := w.sys.proc p
  let file := (w.files.inode ip).dinode.data
  let b := readi file 0 elfhdrSize
  if b.length ≠ elfhdrSize then return (← bad L 0 0 (some ip))
  let elf := Elfhdr.parse b
  if elf.magic ≠ ELF_MAGIC then return (← bad L 0 0 (some ip))
  let pagetable ← onSys (onMem (procPagetable L q.trapframe))
  if pagetable = 0 then return (← bad L 0 0 (some ip))
  let (ok, sz) ← onSys (onMem (loadSegments L pagetable file elf.phnum (elf.phoff % 2 ^ 32) 0))
  if ok.isNone then return (← bad L pagetable sz (some ip))
  onFiles (Files.iunlockput ip)
  onFiles Files.endOp
  match ← onSys (onMem (addStack L pagetable sz argv)) with
  | (none, sz) => bad L pagetable sz none
  | (some sp, sz) =>
    onSys (onMem (storeWord (q.trapframe + tfA1) (BitVec.ofNat 64 sp)))
    saveName p path
    onSys (setProc p fun q => { q with pagetable := pagetable, sz := sz })
    onSys (onMem (storeWord (q.trapframe + tfEpc) (BitVec.ofNat 64 elf.entry)))
    onSys (onMem (storeWord (q.trapframe + tfSp) (BitVec.ofNat 64 sp)))
    onSys (onMem (procFreepagetable L q.pagetable q.sz))
    return argv.length

def exec (L : Layout) (p : Slot) (path : List Byte) (argv : List (List Byte)) : Code Int := do
  onFiles Files.beginOp
  match ← onFiles (Files.namei ((← get).cwd p) path) with
  | none =>
    onFiles Files.endOp
    return -1
  | some ip =>
    onFiles (Files.ilock ip)
    execInode L p path argv ip

abbrev Follows (x : Code α) (y : Ker α) (w : World) : Prop := PbsCow.Follows World.sys Stop.mem x y w

theorem follows_onSys (y : Ker α) (w : World) : Follows (onSys y) y w :=
  .embed (fun _ _ => rfl) (fun _ _ h => by injection h) y w

/-- Code of the file system leaves the rest of the world alone. -/
theorem wp_onFiles (x : Files.Fs α) (w : World) :
    Wp (onFiles x) (fun e => ∀ e', e ≠ .mem e')
      (fun _ w' => w'.sys = w.sys ∧ w'.name = w.name ∧ w'.cwd = w.cwd) w := by
  rw [onFiles, wp_embed, Wp]
  cases x w.files with
  | ok r => exact ⟨rfl, rfl, rfl⟩
  | error e => exact fun e' h => by cases h

theorem follows_files (x : Files.Fs α) {f : α → Code β} {y : Ker β} {w : World}
    (hf : ∀ a w', Follows (f a) y w') : Follows (onFiles x >>= f) y w :=
  .skip ((wp_onFiles x w).mono fun _ _ h => h.1) hf

theorem onMem_pure (a : α) : onMem (pure a) = pure a := zoom_pure (fun _ => rfl) a

theorem onMem_bind (x : Kern α) (f : α → Kern β) : onMem (x >>= f) = onMem x >>= fun a => onMem (f a) := by
  apply zoom_bind
  · intro s t
    rfl
  · intro s s' t
    rfl

theorem follows_letGo (ip : Option Nat) (w : World) :
    Follows (match ip with
      | none => return -1
      | some ip => do
        onFiles (Files.iunlockput ip)
        onFiles Files.endOp
        return -1) (return -1 : Ker Int) w := by
  cases ip with
  | none => exact .pure _ w
  | some ip => exact follows_files _ fun _ w' => follows_files _ fun _ w'' => .pure _ w''

theorem follows_bad (L : Layout) (hne : pagetable ≠ 0) (sz : Nat) (ip : Option Nat) (w : World) :
    Follows (bad L pagetable sz ip) (do
      onMem (procFreepagetable L pagetable sz)
      return -1) w := by
  unfold bad
  dsimp only
  rw [if_pos hne]
  exact (follows_onSys _ w).bind fun _ w' => follows_letGo ip w'

theorem follows_bad_zero (L : Layout) (ip : Option Nat) (w : World) :
    Follows (bad L 0 0 ip) (return -1) w := by
  unfold bad
  dsimp only
  rw [if_neg (by simp)]
  exact follows_letGo ip w

/-- What `exec` does to the memory is what `PbsCow.exec` does, with the contents of the file. -/
theorem follows_execInode (L : Layout) (p : Slot) (path : List Byte) (argv : List (List Byte)) (ip : Nat)
    (w : World) :
    Follows (execInode L p path argv ip)
      (PbsCow.exec L p (some (w.files.inode ip).dinode.data) argv) w := by
  rw [execInode]
  apply PbsCow.Follows.left_get
  rw [PbsCow.exec]
  apply PbsCow.Follows.right_get
  dsimp only
  rw [buildImage]
  dsimp only
  generalize w.sys.proc p = q
  generalize (w.files.inode ip).dinode.data = file
  by_cases hb : (readi file 0 elfhdrSize).length ≠ elfhdrSize
  · rw [if_pos hb, if_pos hb, onMem_pure, pure_bind]
    exact follows_bad_zero L _ w
  rw [if_neg hb, if_neg hb]
  generalize Elfhdr.parse (readi file 0 elfhdrSize) = elf
  by_cases hm : elf.magic ≠ ELF_MAGIC
  · rw [if_pos hm, if_pos hm, onMem_pure, pure_bind]
    exact follows_bad_zero L _ w
  rw [if_neg hm, if_neg hm, onMem_bind, bind_assoc]
  apply (follows_onSys _ w).bind
  intro pagetable w₁
  by_cases h0 : pagetable = 0
  · rw [if_pos h0, if_pos h0, onMem_pure, pure_bind]
    exact follows_bad_zero L _ w₁
  rw [if_neg h0, if_neg h0, fillImage, bind_assoc, onMem_bind, bind_assoc]
  apply (follows_onSys _ w₁).bind
  rintro ⟨ok, sz⟩ w₂
  dsimp only
  by_cases hok : ok.isNone
  · rw [if_pos hok, if_pos hok, pure_bind, onMem_bind, bind_assoc]
    simp only [onMem_pure, pure_bind]
    exact follows_bad L h0 sz _ w₂
  rw [if_neg hok, if_neg hok]
  refine follows_files _ fun _ w₃ => follows_files _ fun _ w₄ => ?_
  rw [onMem_bind, bind_assoc]
  apply (follows_onSys _ w₄).bind
  rintro ⟨_ | sp, sz⟩ w₅
  · dsimp only
    rw [onMem_bind, bind_assoc]
    simp only [onMem_pure, pure_bind]
    exact follows_bad L h0 sz _ w₅
  · dsimp only
    rw [onMem_pure, pure_bind]
    refine (follows_onSys _ w₅).bind fun _ w₆ => .skip (.of_ok rfl rfl) fun _ w₇ => ?_
    refine (follows_onSys _ w₇).bind fun _ w₈ => (follows_onSys _ w₈).bind fun _ w₉ => ?_
    refine (follows_onSys _ w₉).bind fun _ w₁₀ => (follows_onSys _ w₁₀).bind fun _ w₁₁ => ?_
    exact .pure _ w₁₁

end World

end PbsCow

import PbsCow.BlockRuns
import PbsCow.Lib.Simulation

namespace PbsCow.Blocks
set_option autoImplicit true

/-- What a call on inodes returns. -/
inductive Result where
  | none
  | inum (i : Nat)
  | count (r : Int)
  | bytes (bs : Option (List Byte))

def call : Op → Fs Result
  | .writei ip src a off n => do
    ilock ip
    return .count (← Blocks.writei ip src a off n)
  | .readi ip out dst off n => do
    ilock ip
    return .bytes (← Blocks.readi ip out dst off n)
  | .itrunc ip => do
    ilock ip
    Blocks.itrunc ip
    return .none
  | .ialloc type => return .inum (← Blocks.ialloc type)
  | .iget inum => return .inum (← Blocks.iget inum)
  | .iput ip => do
    Blocks.iput ip
    return .none
  | .nlink ip nlink => do
    ilock ip
    setNlink ip nlink
    return .none
  | .evict b => do
    Blocks.evict b
    return .none
  | .beginOp => do
    Blocks.beginOp
    return .none
  | .endOp => do
    Blocks.endOp
    return .none

/-- The memory of the caller is all there, and a new inode has a type. -/
def Op.Proper : Op → Prop
  | .writei _ src a _ n => ∀ i, i < n.toNat → src.byte? (a + i) ≠ none
  | .readi _ out _ _ _ => ∀ a m, out a m = true
  | .ialloc type => type ≠ 0
  | _ => True

/-- A file, without the blocks that it is kept in. -/
structure Contents where
  type : BitVec 16
  nlink : BitVec 16
  bytes : List Byte

/-- The files by their inode numbers. -/
abbrev Store := Nat → Option Contents

/-- What a call does to the files: the others stay as they are. -/
inductive Store.Step (ninodes : Nat) : Op → Store → Result → Store → Prop
  | refuse (h : f ip = some v) (hr : v.bytes.length < off.toNat ∨ MAXFILE * BSIZE < off.toNat + n.toNat) :
      Step ninodes (.writei ip src a off n) f (.count (-1)) f
  | write (m : Nat) (h : f ip = some v) (hoff : off.toNat ≤ v.bytes.length)
      (hmax : off.toNat + n.toNat ≤ MAXFILE * BSIZE)
      (hm : m = n.toNat ∨ m < n.toNat ∧ (m = 0 ∨ (off.toNat + m) % BSIZE = 0)) :
      Step ninodes (.writei ip src a off n) f (.count m)
        (Function.update f ip (some { v with bytes := splice v.bytes off.toNat (src.bytes a m) }))
  | read (h : f ip = some v) : Step ninodes (.readi ip out dst off n) f
      (.bytes (some (if off + n < off then [] else (v.bytes.drop off.toNat).take n.toNat))) f
  | itrunc (h : f ip = some v) :
      Step ninodes (.itrunc ip) f .none (Function.update f ip (some { v with bytes := [] }))
  | ialloc (h₀ : 0 < i) (hi : i < ninodes) (h : f i = none) (hleast : ∀ j, 0 < j → j < i → f j ≠ none) :
      Step ninodes (.ialloc type) f (.inum i) (Function.update f i (some ⟨type, 0, []⟩))
  | full (h : ∀ j, 0 < j → j < ninodes → f j ≠ none) : Step ninodes (.ialloc type) f (.inum 0) f
  | iget : Step ninodes (.iget inum) f (.inum inum) f
  | iput : Step ninodes (.iput ip) f .none f
  | free (h : f ip = some v) (hn : v.nlink = 0) : Step ninodes (.iput ip) f .none (Function.update f ip none)
  | nlink (h : f ip = some v) :
      Step ninodes (.nlink ip nlink) f .none (Function.update f ip (some { v with nlink := nlink }))
  | evict : Step ninodes (.evict b) f .none f
  | beginOp : Step ninodes .beginOp f .none f
  | endOp : Step ninodes .endOp f .none f

/-- The inode whose file a call may change. -/
def Op.target : Op → Option Nat
  | .writei ip _ _ _ _ => some ip
  | .itrunc ip => some ip
  | .iput ip => some ip
  | .nlink ip _ => some ip
  | _ => none

theorem Store.Step.keeps (h : Store.Step ninodes op f r g) (hi : f i = some v) (ht : op.target ≠ some i) :
    g i = some v := by
  have hother {ip : Nat} {x : Option Contents} (hip : some ip ≠ some i) : Function.update f ip x i = some v := by
    rw [Function.update_of_ne, hi]
    intro he
    exact hip (congrArg some he.symm)
  cases h with
  | write => exact hother ht
  | itrunc => exact hother ht
  | free => exact hother ht
  | nlink => exact hother ht
  | ialloc _ _ hfree =>
    apply hother
    intro he
    rw [Option.some.inj he, hi] at hfree
    cases hfree
  | _ => exact hi

/-- The file that an inode and its blocks hold. -/
def State.file (s : State) (i : Nat) : Option Contents :=
  if (s.cur i).type = 0 then none else some ⟨(s.cur i).type, (s.cur i).nlink, s.content i⟩

/-- Every change to a buffer has been logged. -/
def State.Tidy (s : State) : Prop := ∀ b, s.buf b = none

section tidy

theorem tidy_log {s : State} (h : s.Tidy) (b : Nat) : (s.log b).Tidy := by
  intro x
  rcases buf_log s b x with hx | hx
  · exact hx
  · rw [hx, h x]

theorem tidy_put_log {s : State} (h : s.Tidy) (b : Nat) (bp : Block) : ((s.put b bp).log b).Tidy := by
  intro x
  by_cases hx : x = b
  · rw [hx]
    exact Function.update_self ..
  · exact (Function.update_of_ne hx ..).trans ((Function.update_of_ne hx ..).trans (h x))

theorem maintains_logWrite (b : Nat) : Maintains State.Tidy (logWrite b) := by
  apply Maintains.get
  intro s hs t ht
  apply Wp.ite
  · exact fun _ => trivial
  · exact fun _ => tidy_log hs b

/-- A change to a buffer that is logged at once. -/
theorem maintains_setBuf (b : Nat) (f : Block → Block) {x : Fs α} (hx : Maintains State.Tidy x) :
    Maintains State.Tidy (do
      setBuf b f
      logWrite b
      x) := by
  intro s hs
  rw [setBuf, wp_bind, wp_modify, wp_bind]
  apply wp_logWrite
  · exact fun _ => trivial
  · exact fun _ => hx _ (tidy_put_log hs b _)

theorem maintains_bzero (b : Nat) : Maintains State.Tidy (bzero b) := by
  intro s hs
  rw [bzero, setBuf, wp_bind, wp_modify]
  apply wp_logWrite
  · exact fun _ => trivial
  · exact fun _ => tidy_put_log hs b _

theorem maintains_balloc : Maintains State.Tidy balloc := by
  apply Maintains.get
  intro s _
  cases (List.range s.sb.size).find? fun b => !s.bitmap b with
  | none => exact maintains_pure 0
  | some b =>
    apply Maintains.modify
    · exact fun _ ht => ht
    · apply (maintains_logWrite _).bind
      intro _
      exact (maintains_bzero b).bind fun _ => maintains_pure b

theorem maintains_bfree (b : Nat) : Maintains State.Tidy (bfree b) := by
  apply Maintains.get
  intro s _
  apply Maintains.ite
  · exact fun _ => maintains_throw _
  · intro _
    apply Maintains.modify
    · exact fun _ ht => ht
    · exact maintains_logWrite _

theorem maintains_setDinode (ip : Nat) (f : Dinode → Dinode) : Maintains State.Tidy (setDinode ip f) :=
  maintains_modify fun _ ht => ht

theorem maintains_iupdate (ip : Nat) : Maintains State.Tidy (iupdate ip) := by
  apply Maintains.modify
  · exact fun _ ht => ht
  · exact Maintains.get fun _ _ => maintains_logWrite _

theorem maintains_mapAddr (ip i : Nat) : Maintains State.Tidy (mapAddr ip i) := by
  apply Maintains.get
  intro s _
  apply Maintains.ite
  · exact fun _ => maintains_pure _
  · intro _
    apply maintains_balloc.bind
    intro addr
    apply Maintains.ite
    · exact fun _ => maintains_pure _
    · intro _
      exact (maintains_setDinode ip _).bind fun _ => maintains_pure _

theorem maintains_mapEntry (ind bn : Nat) : Maintains State.Tidy (mapEntry ind bn) := by
  apply Maintains.get
  intro s _
  apply Maintains.ite
  · exact fun _ => maintains_pure _
  · intro _
    apply maintains_balloc.bind
    intro addr
    apply Maintains.ite
    · exact fun _ => maintains_pure _
    · exact fun _ => maintains_setBuf ind _ (maintains_pure _)

theorem maintains_bmap (ip bn : Nat) : Maintains State.Tidy (bmap ip bn) := by
  apply Maintains.ite
  · exact fun _ => maintains_mapAddr ip bn
  · intro _
    apply Maintains.ite
    · intro _
      apply (maintains_mapAddr ip NDIRECT).bind
      intro ind
      apply Maintains.ite
      · exact fun _ => maintains_pure 0
      · exact fun _ => maintains_mapEntry ind _
    · exact fun _ => maintains_throw _

theorem maintains_freeDirect (ip : Nat) (is : List Nat) : Maintains State.Tidy (freeDirect ip is) := by
  induction is with
  | nil => exact maintains_pure ()
  | cons i is ih =>
    apply Maintains.get
    intro s _
    apply Maintains.ite
    · intro _
      apply (maintains_bfree _).bind
      intro _
      exact (maintains_setDinode ip _).bind fun _ => ih
    · exact fun _ => ih

theorem maintains_freeEntries (a : Block) (js : List Nat) : Maintains State.Tidy (freeEntries a js) := by
  induction js with
  | nil => exact maintains_pure ()
  | cons j js ih =>
    apply Maintains.ite
    · exact fun _ => (maintains_bfree _).bind fun _ => ih
    · exact fun _ => ih

theorem maintains_itrunc (ip : Nat) : Maintains State.Tidy (itrunc ip) := by
  apply (maintains_freeDirect ip _).bind
  intro _
  have hindirect : Maintains State.Tidy (freeIndirect ip) := by
    apply Maintains.get
    intro s _
    apply Maintains.ite
    · intro _
      apply (maintains_freeEntries _ _).bind
      intro _
      exact (maintains_bfree _).bind fun _ => maintains_setDinode ip _
    · exact fun _ => maintains_pure _
  apply hindirect.bind
  intro _
  exact (maintains_setDinode ip _).bind fun _ => maintains_iupdate ip

theorem maintains_iput (ip : Nat) : Maintains State.Tidy (iput ip) := by
  apply Maintains.get
  intro s _
  have hlast : Maintains State.Tidy (modify fun s =>
      s.setInode ip { s.inode ip with ref := (s.inode ip).ref - 1 } : Fs PUnit) :=
    maintains_modify fun _ ht => ht
  apply Maintains.ite
  · intro _
    apply (maintains_itrunc ip).bind
    intro _
    apply (maintains_setDinode ip _).bind
    intro _
    apply (maintains_iupdate ip).bind
    intro _
    apply Maintains.modify
    · exact fun _ ht => ht
    · exact hlast
  · exact fun _ => hlast

theorem maintains_readLoop (ip : Nat) (out : Nat → Nat → Bool) (fuel dst off left : Nat) (bytes : List Byte) :
    Maintains State.Tidy (readLoop ip out fuel dst off left bytes) := by
  induction fuel generalizing dst off left bytes with
  | zero => exact maintains_pure _
  | succ fuel ih =>
    apply Maintains.ite
    · exact fun _ => maintains_pure _
    · intro _
      apply (maintains_bmap ip _).bind
      intro addr
      apply Maintains.ite
      · exact fun _ => maintains_pure _
      · intro _
        apply Maintains.get
        intro s _
        apply Maintains.ite
        · exact fun _ => ih _ _ _ _
        · exact fun _ => maintains_pure _

theorem maintains_readi (ip : Nat) (out : Nat → Nat → Bool) (dst : Nat) (off n : BitVec 32) :
    Maintains State.Tidy (readi ip out dst off n) := by
  apply Maintains.get
  intro s _
  apply Maintains.ite
  · exact fun _ => maintains_pure _
  · exact fun _ => maintains_readLoop ip out _ dst _ _ _

/-- All that `either_copyin` is asked for is there. -/
theorem eitherCopyin_all {src : Src} (h : ∀ i, i < n → src.byte? (a + i) ≠ none) :
    (eitherCopyin src a n).2 = true := by
  have hc := eitherCopyin_copied src a n
  cases hok : (eitherCopyin src a n).2 with
  | true => rfl
  | false =>
    obtain ⟨hlt, hnone⟩ := hc.fault hok
    exact absurd hnone (h _ hlt)

theorem maintains_writeLoop {src : Src} (ip a : Nat) (off : Nat) (h : ∀ i, i < left → src.byte? (a + tot + i) ≠ none) :
    Maintains State.Tidy (writeLoop ip src a fuel off left tot) := by
  induction fuel generalizing off left tot with
  | zero => exact maintains_pure _
  | succ fuel ih =>
    apply Maintains.ite
    · exact fun _ => maintains_pure _
    · intro _
      apply (maintains_bmap ip _).bind
      intro b
      apply Maintains.ite
      · exact fun _ => maintains_pure _
      · intro _
        have hall : (eitherCopyin src (a + tot) (min left (BSIZE - off % BSIZE))).2 = true := by
          apply eitherCopyin_all
          intro i hi
          exact h i (Nat.lt_of_lt_of_le hi (Nat.min_le_left ..))
        simp only [hall, if_true]
        apply maintains_setBuf
        apply ih
        intro i hi
        rw [← Nat.add_assoc a, Nat.add_assoc]
        apply h
        omega

theorem maintains_writei {src : Src} (ip a : Nat) (off : BitVec 32) {n : BitVec 32}
    (h : ∀ i, i < n.toNat → src.byte? (a + i) ≠ none) : Maintains State.Tidy (writei ip src a off n) := by
  apply Maintains.get
  intro s _
  apply Maintains.ite
  · exact fun _ => maintains_pure _
  · intro _
    apply Maintains.ite
    · exact fun _ => maintains_pure _
    · intro _
      apply (maintains_writeLoop ip a _ h).bind
      intro tot
      have hlast : Maintains State.Tidy (do
          iupdate ip
          return (tot : Int)) := (maintains_iupdate ip).bind fun _ => maintains_pure _
      apply Maintains.ite
      · exact fun _ => (maintains_setDinode ip _).bind fun _ => hlast
      · exact fun _ => hlast

theorem maintains_ilock (ip : Nat) : Maintains State.Tidy (ilock ip) := by
  apply Maintains.get
  intro s _
  apply Maintains.ite
  · exact fun _ => maintains_throw _
  · intro _
    apply Maintains.ite
    · intro _
      apply Maintains.modify
      · exact fun _ ht => ht
      · apply Maintains.ite
        · exact fun _ => maintains_throw _
        · exact fun _ => maintains_pure _
    · exact fun _ => maintains_pure _

theorem maintains_iget (inum : Nat) : Maintains State.Tidy (iget inum) := by
  apply Maintains.modify
  · exact fun _ ht => ht
  · exact maintains_pure _

theorem maintains_ialloc (type : BitVec 16) : Maintains State.Tidy (ialloc type) := by
  apply Maintains.get
  intro s _
  cases (List.range' 1 (s.sb.ninodes - 1)).find? fun inum => (s.dinode inum).type = 0 with
  | none => exact maintains_pure 0
  | some inum =>
    apply Maintains.modify
    · exact fun _ ht => ht
    · exact (maintains_logWrite _).bind fun _ => maintains_iget inum

theorem maintains_call (op : Op) (h : op.Proper) : Maintains State.Tidy (call op) := by
  cases op with
  | writei ip src a off n =>
    apply (maintains_ilock ip).bind
    intro _
    exact (maintains_writei ip a off h).bind fun _ => maintains_pure _
  | readi ip out dst off n =>
    apply (maintains_ilock ip).bind
    intro _
    exact (maintains_readi ip out dst off n).bind fun _ => maintains_pure _
  | itrunc ip =>
    apply (maintains_ilock ip).bind
    intro _
    exact (maintains_itrunc ip).bind fun _ => maintains_pure _
  | ialloc type => exact (maintains_ialloc type).bind fun _ => maintains_pure _
  | iget inum => exact (maintains_iget inum).bind fun _ => maintains_pure _
  | iput ip => exact (maintains_iput ip).bind fun _ => maintains_pure _
  | nlink ip nlink =>
    apply (maintains_ilock ip).bind
    intro _
    apply Maintains.bind
    · exact (maintains_setDinode ip _).bind fun _ => maintains_iupdate ip
    · exact fun _ => maintains_pure _
  | evict b =>
    apply Maintains.modify
    · intro s hs x
      by_cases hx : x = b
      · rw [hx]
        exact Function.update_self ..
      · exact (Function.update_of_ne hx ..).trans (hs x)
    · exact maintains_pure _
  | beginOp =>
    apply Maintains.modify
    · exact fun _ ht => ht
    · exact maintains_pure _
  | endOp =>
    apply Maintains.modify
    · exact fun _ ht => ht
    · exact maintains_pure _

end tidy

end PbsCow.Blocks

import PbsCow.DirectoryMap

namespace PbsCow.Blocks
open Files (DIRSIZ T_DIR direntSize direntInum direntName)
set_option autoImplicit true

/-- A call on a directory, in a transaction: `nameiparent` gives a reference to it, and `iunlockput` gives it
back. -/
def inDir (dp : Nat) (x : Fs α) : Fs α := do
  beginOp
  let dp ← iget dp
  ilock dp
  let r ← x
  iput dp
  endOp
  return r

inductive DirOp where
  | lookup (name : Nat → Byte)
  | link (name : Nat → Byte) (inum : Nat)
  | unlink (name : Nat → Byte)
  | other (op : Op)

inductive DirResult where
  | inum (r : Option Nat)
  | int (r : Int)
  | other (r : Result)

def dirCall (dp : Nat) : DirOp → Fs DirResult
  | .lookup name => inDir dp do
    let r ← dirlookup dp name
    return .inum (r.map Prod.fst)
  | .link name inum => inDir dp do
    return .int (← dirlink dp name inum)
  | .unlink name => inDir dp do
    return .inum (← unlinkDirent dp name)
  | .other op => do
    return .other (← call op)

/-- The inode numbers are those of files, and the other calls are not for the directory. -/
def DirOp.Proper (dp : Nat) : DirOp → Prop
  | .link _ inum => inum ≠ 0 ∧ inum < 2 ^ 16
  | .other op => op.Proper ∧ op.target ≠ some dp
  | _ => True

/-- What a call does to a directory. -/
inductive DirStep (dp : Nat) : DirOp → State → DirResult → State → Prop
  | lookup (h : s.file dp = some v) (h' : t.file dp = some v) :
      DirStep dp (.lookup name) s (.inum (v.names (chars name DIRSIZ))) t
  | link (h : s.file dp = some v) (h' : t.file dp = some v') (hl : Linked dp (chars name DIRSIZ) inum v s r v') :
      DirStep dp (.link name inum) s (.int r) t
  | unlink (h : s.file dp = some v) (h' : t.file dp = some v') (hu : Unlinked (chars name DIRSIZ) v r v') :
      DirStep dp (.unlink name) s (.inum r) t
  | other (h : t.file dp = s.file dp) : DirStep dp (.other op) s (.other r) t

/-- The names after a call. -/
def DirOp.names (m : List Byte → Option Nat) : DirOp → DirResult → List Byte → Option Nat
  | .link name inum, .int r => if r = 0 then Function.update m (chars name DIRSIZ) (some inum) else m
  | .unlink name, .inum (some _) => Function.update m (chars name DIRSIZ) none
  | _, _ => m

/-- The names after some calls. -/
def replay (m : List Byte → Option Nat) : List DirOp → List DirResult → List Byte → Option Nat
  | op :: ops, r :: rs => replay (op.names m r) ops rs
  | _, _ => m

theorem DirStep.names (h : DirStep dp op s r t) (hv : s.file dp = some v) :
    ∃ v', t.file dp = some v' ∧ v'.names = op.names v.names r := by
  cases h with
  | lookup h h' => exact ⟨v, by rw [h', ← h, hv], rfl⟩
  | link h h' hl =>
    rw [hv] at h
    obtain rfl := Option.some.inj h
    cases hl with
    | linked _ _ hnames =>
      refine ⟨_, h', ?_⟩
      rw [DirOp.names, if_pos rfl, hnames]
    | refused _ =>
      refine ⟨v, h', ?_⟩
      rw [DirOp.names, if_neg (by decide)]
  | unlink h h' hu =>
    rw [hv] at h
    obtain rfl := Option.some.inj h
    cases hu with
    | unlinked _ hnames => exact ⟨_, h', hnames⟩
    | absent _ => exact ⟨v, h', rfl⟩
  | other h => exact ⟨v, h.trans hv, rfl⟩

theorem Steps.names (h : Steps (DirStep dp) ops s rs t) (hv : s.file dp = some v) :
    ∃ v', t.file dp = some v' ∧ v'.names = replay v.names ops rs := by
  induction h generalizing v with
  | nil => exact ⟨v, hv, rfl⟩
  | cons h _ ih =>
    obtain ⟨v₁, hv₁, hnames₁⟩ := h.names hv
    obtain ⟨v₂, hv₂, hnames₂⟩ := ih hv₁
    refine ⟨v₂, hv₂, ?_⟩
    rw [hnames₂, hnames₁]
    rfl

variable {sb : Superblock} {kept : Nat → Prop} {s t : State} {dp : Nat} {v : Contents}

/-- Nothing but the table has changed. -/
def Unmoved (s t : State) : Prop := Steady s t ∧ t.sb = s.sb ∧ t.bitmap = s.bitmap

/-- The inode is in the table. -/
def Present (dp : Nat) (s t : State) : Prop := 0 < (t.inode dp).ref ∧ Unmoved s t

theorem present_ilock (dp : Nat) (s : State) : Maintains (Present dp s) (ilock dp) := by
  apply Maintains.get
  intro u _
  apply Maintains.ite
  · exact fun _ => maintains_throw _
  · intro _
    apply Maintains.ite
    · intro _
      apply Maintains.modify
      · intro t ht
        refine ⟨?_, ht.2⟩
        have hself : (t.setInode dp { t.inode dp with dinode := t.dinode dp, valid := true }).inode dp =
            { t.inode dp with dinode := t.dinode dp, valid := true } := Function.update_self ..
        rw [hself]
        exact ht.1
      · apply Maintains.ite
        · exact fun _ => maintains_throw _
        · exact fun _ => maintains_pure _
    · exact fun _ => maintains_pure _

theorem Unmoved.hasRoom (hu : Unmoved s t) (hs : Synced sb kept s) (ht : Synced sb kept t) :
    t.HasRoom dp v ↔ s.HasRoom dp v := by
  have hcur (i : Nat) : t.cur i = s.cur i := by rw [ht.cur, hs.cur, hu.1.1]
  have haddr (i k : Nat) : t.addr i k = s.addr i k := addr_congr (hcur i) (fun _ => by rw [hu.1.2]) k
  have hmissing (off n : Nat) : t.missing dp off n = s.missing dp off n := by
    have hfilled : t.filled dp = s.filled dp := by
      ext k
      rw [mem_filled, mem_filled, haddr]
    rw [State.missing, hfilled]
    rfl
  have hfree : t.free = s.free := by
    rw [State.free, hu.2.1, hu.2.2]
    rfl
  rw [State.HasRoom, State.Extensible, hcur, hmissing, hfree]
  rfl

/-- A directory between the calls on it. -/
structure DirAt (sb : Superblock) (kept : Nat → Prop) (dp : Nat) (v : Contents) (s : State) : Prop
    extends Stands sb kept s where
  file : s.file dp = some v
  dir : Directory v

/-- What is done to a directory that is locked. -/
theorem DirAt.wp_inDir (h : DirAt sb kept dp v s) {x : Fs α} {P : State → α → Contents → Prop}
    (hx : ∀ u, InDir sb kept dp v u → (u.HasRoom dp v ↔ s.HasRoom dp v) →
      Wp x Refused (fun r t => ∃ v', InDir sb kept dp v' t ∧ P u r v') u) :
    Wp (inDir dp x) Refused (fun r t => ∃ u v', (u.HasRoom dp v ↔ s.HasRoom dp v) ∧ DirAt sb kept dp v' t ∧
      P u r v') s := by
  rw [inDir, beginOp, wp_bind, wp_modify]
  obtain ⟨b, hb⟩ : ∃ b, b = { s with logged := [] } := ⟨_, rfl⟩
  rw [← hb]
  have hbs : Synced sb kept b := by
    rw [hb]
    exact ⟨h.toGood.congr rfl rfl rfl (fun _ => .inr rfl) h.covers, h.sb, h.dinode, h.type⟩
  have hgot : Synced sb kept (b.got dp) := by
    have hget := hbs.iget dp
    rwa [iget, wp_bind, wp_modify, wp_pure] at hget
  have hmoved : Unmoved s (b.got dp) := by
    rw [hb]
    exact ⟨⟨rfl, rfl⟩, rfl, rfl⟩
  have href : 0 < ((b.got dp).inode dp).ref := by
    have hself : (b.got dp).inode dp = if 0 < (b.inode dp).ref then { b.inode dp with ref := (b.inode dp).ref + 1 }
        else { b.inode dp with ref := 1, valid := false } := Function.update_self ..
    rw [hself]
    split
    · exact Nat.succ_pos _
    · exact Nat.one_pos
  have htidy : (b.got dp).Tidy := by
    rw [hb]
    exact h.tidy
  rw [wp_bind]
  apply wp_iget_got
  apply (((wp_ilock hgot).and (present_ilock dp s _ ⟨href, hmoved⟩)).and (maintains_ilock dp _ htidy)).bind
  intro _ u hu
  obtain ⟨⟨⟨hus, huv, -⟩, hupresent⟩, hutidy⟩ := hu
  have hin : InDir sb kept dp v u := by
    refine ⟨⟨hus, hutidy⟩, hupresent.1, huv, ?_, h.dir⟩
    rw [h.toSynced.file_eq hus hupresent.2.1]
    exact h.file
  have hroom : u.HasRoom dp v ↔ s.HasRoom dp v := hupresent.2.hasRoom h.toSynced hus
  apply (hx u hin hroom).bind
  intro r t ht
  obtain ⟨v', hin', hP⟩ := ht
  -- the directory has a name, so that its last reference does not free it
  apply ((wp_iput_store hin'.toSynced dp).and (maintains_iput dp t hin'.tidy)).bind
  intro _ w hw
  obtain ⟨⟨hws, hstep⟩, hwtidy⟩ := hw
  have hfile : w.file dp = some v' := by
    obtain ⟨f, hf⟩ : ∃ f, f = t.file := ⟨_, rfl⟩
    obtain ⟨g, hg⟩ : ∃ g, g = w.file := ⟨_, rfl⟩
    have hold := hin'.file
    rw [← hf] at hstep hold
    rw [← hg] at hstep ⊢
    cases hstep with
    | iput => exact hold
    | free hv hn =>
      rw [hold] at hv
      obtain rfl := Option.some.inj hv
      exact absurd hn hin'.dir.linked
  rw [endOp, wp_bind, wp_modify, wp_pure]
  have hes : Synced sb kept { w with logged := [], ended := w.ended ++ [w.logged] } :=
    ⟨hws.toGood.congr rfl rfl rfl (fun _ => .inr rfl) hws.covers, hws.sb, hws.dinode, hws.type⟩
  refine ⟨u, v', hroom, ⟨⟨hes, hwtidy⟩, ?_, hin'.dir⟩, hP⟩
  rw [hws.file_eq hes ⟨rfl, rfl⟩]
  exact hfile

theorem Linked.congr (h : Linked dp key inum v u r v') (hroom : u.HasRoom dp v ↔ s.HasRoom dp v) :
    Linked dp key inum v s r v' := by
  cases h with
  | linked hnew hr hnames => exact .linked hnew (hroom.1 hr) hnames
  | refused hc => exact .refused (hc.imp id fun hn hr => hn (hroom.2 hr))

/-- The directory is there. -/
def HasDir (sb : Superblock) (kept : Nat → Prop) (dp : Nat) (s : State) : Prop := ∃ v, DirAt sb kept dp v s

theorem DirAt.wp_dirCall (h : DirAt sb kept dp v s) {op : DirOp} (hop : op.Proper dp) :
    Wp (dirCall dp op) Refused (fun r t => HasDir sb kept dp t ∧ DirStep dp op s r t) s := by
  cases op with
  | lookup name =>
    apply (h.wp_inDir (P := fun _ r v' => r = .inum (v.names (chars name DIRSIZ)) ∧ v' = v) _).mono
    · intro r t ht
      obtain ⟨_, v', _, ht, rfl, hsame⟩ := ht
      rw [hsame] at ht
      exact ⟨⟨v, ht⟩, .lookup h.file ht.file⟩
    · intro u hu _
      apply (hu.wp_dirlookup name).bind
      intro r t hr
      cases hr with
      | absent hkey =>
        refine wp_pure.2 ⟨v, hu, ?_, rfl⟩
        rw [Contents.names, (SlotTable.find_eq_none _).2 hkey]
        rfl
      | found pre post i hsplit hpre =>
        refine wp_pure.2 ⟨v, hu.got i, ?_, rfl⟩
        rw [Contents.names, hsplit, SlotTable.find_append, (SlotTable.find_eq_none _).2 hpre, SlotTable.find, if_pos rfl]
        rfl
  | link name inum =>
    apply (h.wp_inDir (P := fun u r v' => ∃ i, r = .int i ∧ Linked dp (chars name DIRSIZ) inum v u i v') _).mono
    · intro r t ht
      obtain ⟨u, v', hroom, ht, i, rfl, hl⟩ := ht
      exact ⟨⟨v', ht⟩, .link h.file ht.file (hl.congr hroom)⟩
    · intro u hu _
      apply (hu.wp_dirlink name hop.1 hop.2).bind
      intro r t ht
      obtain ⟨v', ht, hl⟩ := ht
      exact wp_pure.2 ⟨v', ht, r, rfl, hl⟩
  | unlink name =>
    apply (h.wp_inDir (P := fun _ r v' => ∃ i, r = .inum i ∧ Unlinked (chars name DIRSIZ) v i v') _).mono
    · intro r t ht
      obtain ⟨_, v', _, ht, i, rfl, hl⟩ := ht
      exact ⟨⟨v', ht⟩, .unlink h.file ht.file hl⟩
    · intro u hu _
      apply (hu.wp_unlinkDirent name).bind
      intro r t ht
      obtain ⟨v', ht, hl⟩ := ht
      exact wp_pure.2 ⟨v', ht, r, rfl, hl⟩
  | other op =>
    apply (wp_call h.toStands hop.1).bind
    intro r t ht
    have hfile := ht.2.keeps h.file hop.2
    refine wp_pure.2 ⟨⟨v, ht.1, hfile, h.dir⟩, .other ?_⟩
    rw [hfile, h.file]

/-- The disk with an empty directory. -/
def dirDisk : State := { disk with dinode := Function.update disk.dinode 1 ⟨T_DIR, 1, 0, fun _ => 0⟩ }

theorem dirDisk_cur (i : Nat) : dirDisk.cur i = if i = 1 then ⟨T_DIR, 1, 0, fun _ => 0⟩ else disk.cur i := by
  split
  · next hi =>
    rw [hi]
    rfl
  · next hi =>
    have hdinode : dirDisk.dinode i = disk.dinode i := Function.update_of_ne hi ..
    rw [State.cur, hdinode]
    rfl

theorem dirDisk_good : Good (· < 46) dirDisk := by
  have haddr : dirDisk.addr = disk.addr := by
    funext i k
    by_cases hi : i = 1
    · have hcur : dirDisk.cur 1 = ⟨T_DIR, 1, 0, fun _ => 0⟩ := rfl
      rw [hi, disk_addr, if_neg fun h => absurd h.1 (by decide), State.addr, hcur, if_neg (by decide)]
      split
      · rfl
      · exact if_pos (.inl rfl)
    · apply addr_congr (s := disk) (t := dirDisk)
      · rw [dirDisk_cur, if_neg hi]
      · exact fun _ => rfl
  apply disk_good.congr (t := dirDisk) rfl rfl haddr
  · exact fun _ => .inl rfl
  · intro i bn htype hbn
    rw [dirDisk_cur] at htype hbn
    split at hbn
    · exact absurd hbn (Nat.not_lt_zero _)
    · next hi =>
      rw [if_neg hi] at htype
      exact disk_good.covers i bn htype hbn

theorem dirDisk_quiescent : Quiescent dirDisk where
  size_lt := by decide
  dinode i hv := by
    have hi : i ≠ 1 := by
      rintro rfl
      cases hv
    have hdinode : dirDisk.dinode i = disk.dinode i := Function.update_of_ne hi ..
    rw [hdinode]
    exact disk_quiescent.dinode i hv
  clean _ _ := rfl

end PbsCow.Blocks

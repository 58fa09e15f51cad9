import PbsCow.Directory

namespace PbsCow.Blocks
open Files (DIRSIZ T_DIR direntSize direntInum direntName)
set_option autoImplicit true

/-- A directory that has a name, with whole entries and no name twice. -/
structure Directory (v : Contents) : Prop where
  type : v.type = T_DIR
  linked : v.nlink ≠ 0
  whole : v.bytes.length % direntSize = 0
  distinct : (dirSlots v.bytes).Distinct

/-- A directory that is locked. -/
structure InDir (sb : Superblock) (kept : Nat → Prop) (dp : Nat) (v : Contents) (s : State) : Prop
    extends Stands sb kept s where
  ref : 0 < (s.inode dp).ref
  valid : (s.inode dp).valid = true
  file : s.file dp = some v
  dir : Directory v

variable {sb : Superblock} {kept : Nat → Prop} {s t : State} {dp : Nat} {v : Contents} {E : Stop → Prop}

theorem file_eq_some (h : s.file i = some v) :
    (s.cur i).type ≠ 0 ∧ v = ⟨(s.cur i).type, (s.cur i).nlink, s.content i⟩ := by
  rw [State.file] at h
  split at h
  · cases h
  · next hne => exact ⟨hne, (Option.some.inj h).symm⟩

theorem Good.size_le (hg : Good kept s) (ht : (s.cur ip).type ≠ 0) : (s.cur ip).size ≤ MAXFILE * BSIZE := by
  by_contra hlt
  have haddr := hg.covers ip MAXFILE ht (Nat.lt_of_not_le hlt)
  apply haddr
  rw [State.addr]
  split
  · rfl
  · rw [if_neg (by decide), if_pos (.inr (by decide))]

namespace InDir

variable (h : InDir sb kept dp v s)
include h

theorem live : (s.cur dp).type ≠ 0 := (file_eq_some h.file).1

theorem content : s.content dp = v.bytes := by rw [(file_eq_some h.file).2]

theorem isDir : (s.cur dp).type = T_DIR := by
  rw [← h.dir.type, (file_eq_some h.file).2]

theorem size : (s.cur dp).size = v.bytes.length := by rw [← h.content, length_content]

theorem dinode_dp : (s.inode dp).dinode = s.cur dp := by rw [State.cur, if_pos h.valid]

theorem length_le : v.bytes.length ≤ MAXFILE * BSIZE := by
  rw [← h.size]
  exact h.toGood.size_le h.live

theorem toNat_off (hk : k ≤ v.bytes.length / direntSize) : (BitVec.ofNat 32 (direntSize * k)).toNat = direntSize * k := by
  have hle := h.length_le
  rw [BitVec.toNat_ofNat, Nat.mod_eq_of_lt]
  rw [direntSize] at *
  rw [MAXFILE, NDIRECT, NINDIRECT, BSIZE] at hle
  omega

theorem wp_readDirent (hk : k < v.bytes.length / direntSize) (e : Stop) :
    Wp (readDirent dp (direntSize * k) e) E (fun de t => t = s ∧ de = entry v.bytes k) s := by
  rw [readDirent]
  apply (wp_readi h.valid h.toGood h.live (fun _ _ => true) 0 (BitVec.ofNat 32 (direntSize * k))
    (BitVec.ofNat 32 direntSize)).bind
  intro r t hr
  obtain ⟨rfl, hr⟩ := hr
  have hoff := h.toNat_off (Nat.le_of_lt hk)
  have hsize : (BitVec.ofNat 32 direntSize).toNat = direntSize := rfl
  have hle := h.length_le
  have hwrap : ¬BitVec.ofNat 32 (direntSize * k) + BitVec.ofNat 32 direntSize < BitVec.ofNat 32 (direntSize * k) := by
    rw [BitVec.lt_def, BitVec.toNat_add, hoff, hsize]
    rw [direntSize] at *
    rw [MAXFILE, NDIRECT, NINDIRECT, BSIZE] at hle
    omega
  rw [hr fun _ _ => rfl, if_neg hwrap, hoff, hsize, h.content]
  apply Wp.ite_neg
  · rw [not_not]
    exact length_entry hk
  · exact wp_pure.2 ⟨rfl, rfl⟩

/-- A change to the table that the directory does not mind. -/
theorem setInode (i : Nat) (x : Inode) (hx : x.valid = true → x.dinode = s.dinode i ∧ (s.dinode i).type ≠ 0)
    (hdp : i = dp → 0 < x.ref ∧ x.valid = true) : InDir sb kept dp v (s.setInode i x) := by
  have hs : Synced sb kept (s.setInode i x) := h.toSynced.setInode i x hx
  have hinode (j : Nat) : (s.setInode i x).inode j = if j = i then x else s.inode j := by
    by_cases hj : j = i
    · rw [hj, if_pos rfl]
      exact Function.update_self ..
    · rw [if_neg hj]
      exact Function.update_of_ne hj ..
  refine ⟨⟨hs, h.tidy⟩, ?_, ?_, ?_, h.dir⟩
  · rw [hinode]
    split
    · next hi => exact (hdp hi.symm).1
    · exact h.ref
  · rw [hinode]
    split
    · next hi => exact (hdp hi.symm).2
    · exact h.valid
  · rw [h.toSynced.file_eq hs ⟨rfl, rfl⟩]
    exact h.file

end InDir

/-- The table after `iget`. -/
def State.got (s : State) (inum : Nat) : State :=
  s.setInode inum (if 0 < (s.inode inum).ref then { s.inode inum with ref := (s.inode inum).ref + 1 }
    else { s.inode inum with ref := 1, valid := false })

theorem wp_iget_got (hq : Q inum (s.got inum)) : Wp (iget inum) E Q s := by
  rw [iget, wp_bind, wp_modify, wp_pure]
  exact hq

theorem InDir.got (h : InDir sb kept dp v s) (inum : Nat) : InDir sb kept dp v (s.got inum) := by
  apply h.setInode
  · intro hv
    split at hv
    · next hr =>
      rw [if_pos hr]
      exact ⟨h.dinode inum hv, h.toSynced.type inum hv⟩
    · cases hv
  · intro hi
    subst hi
    rw [if_pos h.ref]
    exact ⟨Nat.succ_pos _, h.valid⟩

/-- The reference that `iget` has given is given back. -/
theorem InDir.wp_iput_got (h : InDir sb kept dp v s) (inum : Nat) :
    Wp (iput inum) E (fun _ t => InDir sb kept dp v t) (s.got inum) := by
  have hgot := h.got inum
  have hself : (s.got inum).inode inum = if 0 < (s.inode inum).ref then
      { s.inode inum with ref := (s.inode inum).ref + 1 } else { s.inode inum with ref := 1, valid := false } :=
    Function.update_self ..
  rw [iput, wp_bind, wp_get]
  apply Wp.ite_neg
  · rw [hself]
    intro hc
    split at hc
    · next hr =>
      have h1 : (s.inode inum).ref + 1 = 1 := hc.1
      omega
    · cases hc.2.1
  · rw [wp_modify]
    apply hgot.setInode
    · exact fun hv => ⟨hgot.dinode inum hv, hgot.toSynced.type inum hv⟩
    · intro hi
      subst hi
      rw [hself, if_pos h.ref]
      exact ⟨h.ref, h.valid⟩

/-- What `dirlookup` finds in a table of slots. -/
inductive Looked (l : SlotTable (List Byte) Nat) (key : List Byte) (s : State) : Option (Nat × Nat) → State → Prop
  | absent (h : key ∉ l.keys) : Looked l key s none s
  | found (pre post : SlotTable (List Byte) Nat) (inum : Nat) (h : l = pre ++ some (key, inum) :: post)
      (hpre : key ∉ pre.keys) :
      Looked l key s (some (inum, direntSize * pre.length)) (s.got inum)

theorem dirSlots_take (hk : k < bytes.length / direntSize) :
    (dirSlots bytes).take (k + 1) = (dirSlots bytes).take k ++ [slot (entry bytes k)] := by
  rw [List.take_add_one, getElem?_dirSlots hk]
  rfl

theorem dirSlots_split (hk : k < bytes.length / direntSize) :
    dirSlots bytes = (dirSlots bytes).take k ++ slot (entry bytes k) :: (dirSlots bytes).drop (k + 1) := by
  have hsplit := List.take_append_drop (k + 1) (dirSlots bytes)
  rw [dirSlots_take hk, List.append_assoc] at hsplit
  exact hsplit.symm

theorem InDir.wp_dirlookupLoop (h : InDir sb kept dp v s) (name : Nat → Byte)
    (hk : k ≤ v.bytes.length / direntSize) (hfuel : v.bytes.length / direntSize - k < fuel)
    (hpre : chars name DIRSIZ ∉ SlotTable.keys ((dirSlots v.bytes).take k)) :
    Wp (dirlookupLoop dp name fuel (direntSize * k)) E (Looked (dirSlots v.bytes) (chars name DIRSIZ) s) s := by
  induction fuel generalizing k with
  | zero => exact absurd hfuel (Nat.not_lt_zero _)
  | succ fuel ih =>
    have hwhole := h.dir.whole
    rw [dirlookupLoop, wp_bind, wp_get, h.dinode_dp, h.size]
    apply Wp.ite
    · intro hend
      have hlast : (dirSlots v.bytes).take k = dirSlots v.bytes := by
        apply List.take_of_length_le
        rw [length_dirSlots]
        rw [direntSize] at *
        omega
      rw [hlast] at hpre
      exact wp_pure.2 (.absent hpre)
    · intro hlt
      have hin : k < v.bytes.length / direntSize := by
        rw [direntSize] at *
        omega
      apply (h.wp_readDirent hin .dirlookupRead).bind
      intro de t hde
      obtain ⟨rfl, rfl⟩ := hde
      have hname := namecmp_nameAt name (length_entry hin)
      have hsplit := dirSlots_split hin
      apply Wp.ite
      · intro hc
        rw [wp_bind]
        apply wp_iget_got
        have hslot : slot (entry v.bytes k) = some (chars name DIRSIZ, direntInum (entry v.bytes k)) := by
          rw [slot, if_neg hc.1, hname.1 hc.2]
        have hlen : ((dirSlots v.bytes).take k).length = k := by
          rw [List.length_take, length_dirSlots, Nat.min_eq_left hk]
        rw [hslot] at hsplit
        have hfound := Looked.found (s := t) _ _ _ hsplit hpre
        rw [hlen] at hfound
        exact wp_pure.2 hfound
      · intro hc
        rw [← Nat.mul_succ]
        apply ih hin (by omega)
        rw [dirSlots_take hin, SlotTable.keys_append, List.mem_append, not_or]
        refine ⟨hpre, ?_⟩
        rw [slot]
        by_cases h0 : direntInum (entry v.bytes k) = 0
        · rw [if_pos h0]
          exact List.not_mem_nil
        · rw [if_neg h0]
          intro hmem
          apply hc
          exact ⟨h0, hname.2 (List.mem_singleton.1 hmem).symm⟩

theorem InDir.wp_dirlookup (h : InDir sb kept dp v s) (name : Nat → Byte) :
    Wp (dirlookup dp name) E (Looked (dirSlots v.bytes) (chars name DIRSIZ) s) s := by
  rw [dirlookup, wp_bind, wp_get, h.dinode_dp]
  apply Wp.ite_neg
  · rw [not_not]
    exact h.isDir
  · rw [h.size]
    apply h.wp_dirlookupLoop name (Nat.zero_le _)
    · exact Nat.lt_succ_self _
    · exact List.not_mem_nil

/-- The first slot that is free, or the end. -/
theorem InDir.wp_findEmpty (h : InDir sb kept dp v s) (hk : k ≤ v.bytes.length / direntSize)
    (hfuel : v.bytes.length / direntSize - k < fuel) (hpre : none ∉ (dirSlots v.bytes).take k) :
    Wp (findEmpty dp fuel (direntSize * k)) E (fun off t => t = s ∧ ∃ j, off = direntSize * j ∧
      (j < v.bytes.length / direntSize ∧ slot (entry v.bytes j) = none ∨
        j = v.bytes.length / direntSize ∧ none ∉ dirSlots v.bytes)) s := by
  induction fuel generalizing k with
  | zero => exact absurd hfuel (Nat.not_lt_zero _)
  | succ fuel ih =>
    have hwhole := h.dir.whole
    rw [findEmpty, wp_bind, wp_get, h.dinode_dp, h.size]
    apply Wp.ite
    · intro hend
      have hlast : k = v.bytes.length / direntSize := by
        rw [direntSize] at *
        omega
      rw [List.take_of_length_le (by rw [length_dirSlots, hlast])] at hpre
      exact wp_pure.2 ⟨rfl, k, rfl, .inr ⟨hlast, hpre⟩⟩
    · intro hlt
      have hin : k < v.bytes.length / direntSize := by
        rw [direntSize] at *
        omega
      apply (h.wp_readDirent hin .dirlinkRead).bind
      intro de t hde
      obtain ⟨rfl, rfl⟩ := hde
      apply Wp.ite
      · intro h0
        exact wp_pure.2 ⟨rfl, k, rfl, .inl ⟨hin, if_pos h0⟩⟩
      · intro h0
        rw [← Nat.mul_succ]
        apply ih hin (by omega)
        rw [dirSlots_take hin, List.mem_append, not_or]
        refine ⟨hpre, ?_⟩
        rw [slot, if_neg h0, List.mem_singleton]
        exact (Option.some_ne_none _).symm

end PbsCow.Blocks

import PbsCow.Itrunc
import PbsCow.Lib.Runs

namespace PbsCow.Blocks
set_option autoImplicit true

/-- The calls on inodes: each that needs the inode locked is made after `ilock`. `evict`: the cache
recycles a buffer, with the changes that have not been logged. -/
inductive Op where
  | writei (ip : Nat) (src : Src) (a : Nat) (off n : BitVec 32)
  | readi (ip : Nat) (out : Nat → Nat → Bool) (dst : Nat) (off n : BitVec 32)
  | itrunc (ip : Nat)
  | ialloc (type : BitVec 16)
  | iget (inum : Nat)
  | iput (ip : Nat)
  | nlink (ip : Nat) (nlink : BitVec 16)
  | evict (b : Nat)
  | beginOp
  | endOp

def setNlink (ip : Nat) (nlink : BitVec 16) : Fs Unit := do
  setDinode ip fun d => { d with nlink := nlink }
  iupdate ip

def evict (b : Nat) : Fs Unit := modify fun s => { s with buf := Function.update s.buf b none }

def step : Op → Fs Unit
  | .writei ip src a off n => do
    ilock ip
    discard (Blocks.writei ip src a off n)
  | .readi ip out dst off n => do
    ilock ip
    discard (Blocks.readi ip out dst off n)
  | .itrunc ip => do
    ilock ip
    Blocks.itrunc ip
  | .ialloc type => discard (Blocks.ialloc type)
  | .iget inum => discard (Blocks.iget inum)
  | .iput ip => Blocks.iput ip
  | .nlink ip nlink => do
    ilock ip
    setNlink ip nlink
  | .evict b => Blocks.evict b
  | .beginOp => Blocks.beginOp
  | .endOp => Blocks.endOp

/-- Between the calls, what the table holds of an inode is what the disk holds. -/
structure Synced (sb : Superblock) (kept : Nat → Prop) (s : State) : Prop extends Good kept s where
  sb : s.sb = sb
  dinode : ∀ i, (s.inode i).valid = true → (s.inode i).dinode = s.dinode i
  type : ∀ i, (s.inode i).valid = true → (s.dinode i).type ≠ 0

/-- The errors that remain: the log is full, the caller has no reference, or the inode is free. -/
def Refused (e : Stop) : Prop := e = .tooBigATransaction ∨ e = .ilock ∨ e = .ilockNoType

variable {sb : Superblock} {kept : Nat → Prop} {s t : State} {ip : Nat}

theorem Synced.cur (h : Synced sb kept s) (i : Nat) : s.cur i = s.dinode i := by
  rw [State.cur]
  split
  · next hv => exact h.dinode i hv
  · rfl

/-- A change to the table that leaves the disk alone. -/
theorem Synced.setInode (h : Synced sb kept s) (ip : Nat) (x : Inode)
    (hx : x.valid = true → x.dinode = s.dinode ip ∧ (s.dinode ip).type ≠ 0) : Synced sb kept (s.setInode ip x) := by
  have hself : (s.setInode ip x).inode ip = x := Function.update_self ..
  have hother (i : Nat) (hi : i ≠ ip) : (s.setInode ip x).inode i = s.inode i := Function.update_of_ne hi ..
  have hcur : (s.setInode ip x).cur = s.cur := by
    funext i
    rw [h.cur, State.cur]
    by_cases hi : i = ip
    · subst hi
      rw [hself]
      split
      · next hv => exact (hx hv).1
      · rfl
    · rw [hother i hi]
      exact h.cur i
  have haddr : (s.setInode ip x).addr = s.addr := by
    funext i k
    exact addr_congr (s := s) (t := s.setInode ip x) (congrFun hcur i) (fun _ => rfl) k
  refine ⟨?_, h.sb, ?_, ?_⟩
  · apply h.toGood.congr (t := s.setInode ip x) rfl rfl haddr
    · exact fun _ => .inr rfl
    · rw [hcur]
      exact h.covers
  · intro i hv
    by_cases hi : i = ip
    · subst hi
      rw [hself] at hv ⊢
      exact (hx hv).1
    · rw [hother i hi] at hv ⊢
      exact h.dinode i hv
  · intro i hv
    by_cases hi : i = ip
    · subst hi
      rw [hself] at hv
      exact (hx hv).2
    · rw [hother i hi] at hv
      exact h.type i hv

theorem wp_ilock (h : Synced sb kept s) :
    Wp (ilock ip) Refused (fun _ t => Synced sb kept t ∧ (t.inode ip).valid = true ∧ (t.cur ip).type ≠ 0) s := by
  rw [ilock, wp_bind, wp_get]
  apply Wp.ite
  · exact fun _ => .inr (.inl rfl)
  · intro _
    apply Wp.ite
    · intro _
      rw [wp_bind, wp_modify]
      apply Wp.ite
      · exact fun _ => .inr (.inr rfl)
      · intro ht
        have hs := h.setInode ip { s.inode ip with dinode := s.dinode ip, valid := true } fun _ => ⟨rfl, ht⟩
        refine wp_pure.2 ⟨hs, ?_, ?_⟩
        · exact congrArg Inode.valid (Function.update_self ip _ s.inode)
        · rw [hs.cur]
          exact ht
    · intro hv
      rw [Bool.not_eq_true', Bool.not_eq_false] at hv
      refine wp_pure.2 ⟨h, hv, ?_⟩
      rw [h.cur]
      exact h.type ip hv

/-- The calls that end with `iupdate`. -/
theorem Synced.update (h : Synced sb kept s) (ip : Nat) (hg : Good kept t) (hsb : t.sb = s.sb) (hothers : ∀ i, i ≠ ip → t.inode i = s.inode i)
    (hdinode : t.dinode = Function.update s.dinode ip (t.cur ip)) (htype : (t.cur ip).type ≠ 0) : Synced sb kept t := by
  refine ⟨hg, hsb.trans h.sb, fun i hv => ?_, fun i hv => ?_⟩
  · by_cases hi : i = ip
    · subst hi
      rw [hdinode, Function.update_self, State.cur, if_pos hv]
    · rw [hothers i hi] at hv ⊢
      rw [hdinode, Function.update_of_ne hi]
      exact h.dinode i hv
  · by_cases hi : i = ip
    · subst hi
      rw [hdinode, Function.update_self]
      exact htype
    · rw [hothers i hi] at hv
      rw [hdinode, Function.update_of_ne hi]
      exact h.type i hv

section locked

variable (h : Synced sb kept s) (hv : (s.inode ip).valid = true) (ht : (s.cur ip).type ≠ 0)
include h hv ht

theorem Synced.writei (src : Src) (a : Nat) (off n : BitVec 32) :
    Wp (writei ip src a off n) Refused (fun _ t => Synced sb kept t) s := by
  obtain ⟨W, hW⟩ := exists_spans off.toNat n.toNat
  apply ((wp_writei h.toGood hv ht src a off n hW).weaken fun _ he => .inl he.1).mono
  intro r t hr
  rcases hr with ⟨_, _, rfl⟩ | ⟨_, m, p, u, _, hw, hfin⟩
  · exact h
  · apply h.update ip hfin.good (hfin.sb.trans hw.sb)
    · intro i hi
      rw [hfin.others i hi, hw.others i hi]
    · rw [hfin.dinode, hw.dinode]
    · rwa [hfin.type, hw.type]

theorem Synced.readi (out : Nat → Nat → Bool) (dst : Nat) (off n : BitVec 32) :
    Wp (readi ip out dst off n) Refused (fun _ t => Synced sb kept t) s := by
  apply (wp_readi hv h.toGood ht out dst off n).mono
  intro _ t hr
  rw [hr.1]
  exact h

theorem Synced.itrunc : Wp (itrunc ip) Refused (fun _ t => Synced sb kept t) s := by
  apply ((wp_itrunc h.toGood hv ht).weaken fun _ he => .inl he).mono
  intro _ t htr
  apply h.update ip htr.good htr.sb htr.others htr.dinode
  rwa [htr.type]

/-- A change to the inode that leaves its type, its size and its addresses alone. -/
theorem Synced.setDinode {f : Dinode → Dinode}
    (hf : ∀ d, (f d).type = d.type ∧ (f d).size = d.size ∧ (f d).addrs = d.addrs) :
    Wp (do
      setDinode ip f
      iupdate ip) Refused (fun _ t => Synced sb kept t) s := by
  rw [Blocks.setDinode, wp_bind, wp_modify]
  obtain ⟨u, hu⟩ : ∃ u, u = s.setDinode ip f := ⟨_, rfl⟩
  rw [← hu]
  have hcur : u.cur ip = f (s.cur ip) := by
    rw [hu]
    exact cur_setDinode s f hv
  have hvu : (u.inode ip).valid = true := by
    rw [hu, inode_setDinode, ← hv]
  have hgu : Good kept u := by
    have haddr : u.addr = s.addr := by
      rw [hu]
      exact addr_setDinode hv fun d => ⟨(hf d).1, (hf d).2.2⟩
    have hlike (i : Nat) : (u.cur i).type = (s.cur i).type ∧ (u.cur i).size = (s.cur i).size := by
      by_cases hi : i = ip
      · subst hi
        rw [hcur]
        exact ⟨(hf _).1, (hf _).2.1⟩
      · rw [hu, cur_setDinode_of_ne s f hi]
        exact ⟨rfl, rfl⟩
    apply h.toGood.congr _ _ haddr
    · intro b
      rw [hu]
      exact .inr rfl
    · intro i bn htype hbn
      rw [(hlike i).1] at htype
      rw [(hlike i).2] at hbn
      exact h.covers i bn htype hbn
    · rw [hu]
      rfl
    · rw [hu]
      rfl
  apply ((wp_iupdate (s := u) (W := ∅) rfl id).weaken fun _ he => .inl he.1).mono
  intro _ t hteq
  have hfin := finished_flush hgu hvu (Nat.zero_le _)
  rw [← hteq] at hfin
  apply h.update ip hfin.good
  · rw [hfin.sb, hu]
    rfl
  · intro i hi
    rw [hfin.others i hi, hu]
    exact Function.update_of_ne hi ..
  · rw [hfin.dinode, hu]
    rfl
  · rw [hfin.type, hcur, (hf _).1]
    exact ht

end locked

theorem Synced.iget (h : Synced sb kept s) (inum : Nat) : Wp (iget inum) Refused (fun _ t => Synced sb kept t) s := by
  rw [Blocks.iget, wp_bind, wp_modify, wp_pure]
  apply h.setInode
  intro hv
  split at hv
  · next hr =>
    rw [if_pos hr]
    exact ⟨h.dinode inum hv, h.type inum hv⟩
  · cases hv

theorem Good.evict (hg : Good kept s) (b : Nat) :
    Good kept { s with buf := Function.update s.buf b none } := by
  have haddr : ({ s with buf := Function.update s.buf b none } : State).addr = s.addr := by
    funext i k
    apply addr_congr (s := s) (t := { s with buf := Function.update s.buf b none }) rfl
    intro hne
    change (Function.update s.buf b none (s.addr i NDIRECT)).getD (s.data _) = (s.buf (s.addr i NDIRECT)).getD (s.data _)
    by_cases hb : s.addr i NDIRECT = b
    · rw [hb, Function.update_self, ← hb, hg.clean i hne]
    · rw [Function.update_of_ne hb]
  apply hg.congr (t := { s with buf := Function.update s.buf b none }) rfl rfl haddr
  · intro x
    by_cases hx : x = b
    · rw [hx]
      exact .inl (Function.update_self ..)
    · exact .inr (Function.update_of_ne hx ..)
  · exact hg.covers

/-- A free inode is marked on the disk, and has no blocks. -/
theorem Synced.mark (h : Synced sb kept s) (hfree : (s.dinode inum).type = 0) (type : BitVec 16) (c : Nat) :
    Synced sb kept (State.log { s with dinode := Function.update s.dinode inum { Dinode.empty with type := type } } c) := by
  obtain ⟨t, ht⟩ : ∃ t, t = State.log
    { s with dinode := Function.update s.dinode inum { Dinode.empty with type := type } } c := ⟨_, rfl⟩
  rw [← ht]
  have hinode : t.inode = s.inode := by rw [ht]; rfl
  have hdinode : t.dinode = Function.update s.dinode inum { Dinode.empty with type := type } := by rw [ht]; rfl
  have hnv : (s.inode inum).valid ≠ true := fun hv => h.type inum hv hfree
  have hcur (i : Nat) : t.cur i = if i = inum then { Dinode.empty with type := type } else s.cur i := by
    rw [State.cur, hinode, hdinode]
    by_cases hi : i = inum
    · subst hi
      rw [if_neg hnv, Function.update_self, if_pos rfl]
    · rw [Function.update_of_ne hi, if_neg hi, State.cur]
  have haddr : t.addr = s.addr := by
    funext i k
    by_cases hi : i = inum
    · subst hi
      have hold : s.addr i k = 0 := by
        rw [State.addr, h.cur, if_pos hfree]
      have hempty : t.cur i = { Dinode.empty with type := type } := by rw [hcur, if_pos rfl]
      rw [hold, State.addr, hempty]
      split
      · rfl
      · split
        · rfl
        · exact if_pos (.inl rfl)
    · apply addr_congr (s := s) (t := t)
      · rw [hcur, if_neg hi]
      · intro _
        rw [ht, bread_log]
        rfl
  refine ⟨?_, by rw [ht]; exact h.sb, ?_, ?_⟩
  · apply h.toGood.congr _ _ haddr
    · intro b
      rw [ht]
      exact buf_log { s with dinode := Function.update s.dinode inum { Dinode.empty with type := type } } c b
    · intro i bn htype hbn
      rw [hcur] at htype hbn
      split at htype
      · next hi =>
        rw [if_pos hi] at hbn
        exact absurd hbn (Nat.not_lt_zero _)
      · next hi =>
        rw [if_neg hi] at hbn
        exact h.covers i bn htype hbn
    · rw [ht]
      rfl
    · rw [ht]
      rfl
  · intro i hv
    rw [hinode] at hv ⊢
    have hi : i ≠ inum := fun he => hnv (he ▸ hv)
    rw [hdinode, Function.update_of_ne hi]
    exact h.dinode i hv
  · intro i hv
    rw [hinode] at hv
    have hi : i ≠ inum := fun he => hnv (he ▸ hv)
    rw [hdinode, Function.update_of_ne hi]
    exact h.type i hv

theorem Synced.ialloc (h : Synced sb kept s) (type : BitVec 16) : Wp (ialloc type) Refused (fun _ t => Synced sb kept t) s := by
  rw [Blocks.ialloc, wp_bind, wp_get]
  cases hf : (List.range' 1 (s.sb.ninodes - 1)).find? fun inum => decide ((s.dinode inum).type = 0) with
  | none => exact wp_pure.2 h
  | some inum =>
    have hfree : (s.dinode inum).type = 0 := by
      have hfound := List.find?_some hf
      simpa using hfound
    rw [wp_bind, wp_modify, wp_bind]
    apply wp_logWrite
    · exact fun _ => .inl rfl
    · intro _
      exact (h.mark hfree type _).iget inum

/-- Whether `iput` frees the inode or not. -/
theorem Synced.iput (h : Synced sb kept s) (ip : Nat) : Wp (iput ip) Refused (fun _ t => Synced sb kept t) s := by
  have hlast {t : State} (ht : Synced sb kept t) : Wp (do
      modify fun s => s.setInode ip { s.inode ip with ref := (s.inode ip).ref - 1 }) Refused
      (fun _ t => Synced sb kept t) t := by
    rw [wp_modify]
    exact ht.setInode ip _ fun hv => ⟨ht.dinode ip hv, ht.type ip hv⟩
  rw [Blocks.iput, wp_bind, wp_get]
  apply Wp.ite
  · intro hc
    have hv := hc.2.1
    have htype : (s.cur ip).type ≠ 0 := by
      rw [h.cur]
      exact h.type ip hv
    rw [wp_bind]
    apply ((wp_itrunc h.toGood hv htype).weaken fun _ he => .inl he).mono
    intro _ t htr
    rw [wp_bind, Blocks.setDinode, wp_modify, wp_bind]
    obtain ⟨u, hu⟩ : ∃ u, u = t.setDinode ip fun d => { d with type := 0 } := ⟨_, rfl⟩
    rw [← hu]
    have hvt : (t.inode ip).valid = true := by rw [htr.valid, hv]
    have hcur : u.cur ip = { t.cur ip with type := 0 } := by
      rw [hu]
      exact cur_setDinode t _ hvt
    have hcuro (i : Nat) (hi : i ≠ ip) : u.cur i = t.cur i := by
      rw [hu]
      exact cur_setDinode_of_ne t _ hi
    have hvu : (u.inode ip).valid = true := by rw [hu, inode_setDinode, ← hvt]
    have haddr : u.addr = t.addr := by
      funext i k
      by_cases hi : i = ip
      · rw [hi, htr.addr, if_pos rfl, State.addr, hcur]
        exact if_pos rfl
      · apply addr_congr (hcuro i hi)
        intro _
        rw [hu]
        rfl
    have hgu : Good kept u := by
      apply htr.good.congr _ _ haddr
      · intro b
        rw [hu]
        exact .inr rfl
      · intro i bn htu hbn
        by_cases hi : i = ip
        · rw [hi, hcur] at htu
          exact absurd rfl htu
        · rw [hcuro i hi] at htu hbn
          exact htr.good.covers i bn htu hbn
      · rw [hu]
        rfl
      · rw [hu]
        rfl
    apply ((wp_iupdate (s := u) (W := ∅) rfl id).weaken fun _ he => .inl he.1).mono
    intro _ v hveq
    have hfin := finished_flush hgu hvu (Nat.zero_le _)
    rw [← hveq] at hfin
    rw [wp_bind, wp_modify]
    apply hlast
    -- the entry that is not valid any more has the free inode of the disk
    have hold (i : Nat) (hi : i ≠ ip) : v.inode i = s.inode i ∧ v.dinode i = s.dinode i := by
      have h₁ : u.inode i = t.inode i := by
        rw [hu]
        exact Function.update_of_ne hi ..
      have h₂ : u.dinode = t.dinode := by
        rw [hu]
        rfl
      constructor
      · rw [hfin.others i hi, h₁, htr.others i hi]
      · rw [hfin.dinode, Function.update_of_ne hi, h₂, htr.dinode, Function.update_of_ne hi]
    obtain ⟨w, hw⟩ : ∃ w, w = v.setInode ip { v.inode ip with valid := false } := ⟨_, rfl⟩
    rw [← hw]
    have hwself : (w.inode ip).valid = false := by
      rw [hw]
      exact congrArg Inode.valid (Function.update_self ip { v.inode ip with valid := false } v.inode)
    have hwother (i : Nat) (hi : i ≠ ip) : w.inode i = s.inode i := by
      rw [hw, ← (hold i hi).1]
      exact Function.update_of_ne hi ..
    have hwdin : w.dinode = v.dinode := by
      rw [hw]
      rfl
    have hwcur : w.cur = v.cur := by
      funext i
      rw [State.cur, hwdin]
      by_cases hi : i = ip
      · rw [hi, hwself, if_neg (by decide), hfin.dinode, Function.update_self]
      · rw [hwother i hi, ← (hold i hi).1]
        rfl
    refine ⟨?_, ?_, ?_, ?_⟩
    · have hwaddr : w.addr = v.addr := by
        funext i k
        apply addr_congr (congrFun hwcur i)
        intro _
        rw [hw]
        rfl
      apply hfin.good.congr _ _ hwaddr
      · intro b
        rw [hw]
        exact .inr rfl
      · rw [hwcur]
        exact hfin.good.covers
      · rw [hw]
        rfl
      · rw [hw]
        rfl
    · have hsb : u.sb = t.sb := by rw [hu]; rfl
      rw [hw, ← h.sb, ← htr.sb, ← hsb, ← hfin.sb]
      rfl
    · intro i hvi
      have hi : i ≠ ip := by
        rintro rfl
        rw [hwself] at hvi
        cases hvi
      rw [hwother i hi] at hvi ⊢
      rw [hwdin, (hold i hi).2]
      exact h.dinode i hvi
    · intro i hvi
      have hi : i ≠ ip := by
        rintro rfl
        rw [hwself] at hvi
        cases hvi
      rw [hwother i hi] at hvi
      rw [hwdin, (hold i hi).2]
      exact h.type i hvi
  · exact fun _ => hlast h

theorem Synced.step (h : Synced sb kept s) (op : Op) : Wp (step op) Refused (fun _ t => Synced sb kept t) s := by
  have hlock {α : Type} {ip : Nat} {x : Fs α} (hx : ∀ t, Synced sb kept t → (t.inode ip).valid = true →
      (t.cur ip).type ≠ 0 → Wp x Refused (fun _ u => Synced sb kept u) t) : Wp (do
        ilock ip
        discard x) Refused (fun _ u => Synced sb kept u) s := by
    apply (wp_ilock h).bind
    intro _ t ht
    exact wp_map.2 (hx t ht.1 ht.2.1 ht.2.2)
  cases op with
  | writei ip src a off n => exact hlock fun t ht hv htype => ht.writei hv htype src a off n
  | readi ip out dst off n => exact hlock fun t ht hv htype => ht.readi hv htype out dst off n
  | itrunc ip => exact (wp_ilock h).bind fun _ t ht => ht.1.itrunc ht.2.1 ht.2.2
  | ialloc type => exact wp_map.2 (h.ialloc type)
  | iget inum => exact wp_map.2 (h.iget inum)
  | iput ip => exact h.iput ip
  | nlink ip nlink => exact (wp_ilock h).bind fun _ t ht => ht.1.setDinode ht.2.1 ht.2.2 fun _ => ⟨rfl, rfl, rfl⟩
  | evict b => exact ⟨h.toGood.evict b, h.sb, h.dinode, h.type⟩
  | beginOp => exact ⟨h.toGood.congr rfl rfl rfl (fun _ => .inr rfl) h.covers, h.sb, h.dinode, h.type⟩
  | endOp => exact ⟨h.toGood.congr rfl rfl rfl (fun _ => .inr rfl) h.covers, h.sb, h.dinode, h.type⟩

def State.Referenced (s : State) (b : Nat) : Prop := ∃ i k, s.addr i k = b ∧ b ≠ 0

/-- A block that is marked and of no use. -/
def State.Leaked (s : State) (b : Nat) : Prop := s.sb.nmeta ≤ b ∧ s.bitmap b = true ∧ ¬s.Referenced b

/-- The blocks of the inodes are distinct data blocks, are marked and cover the sizes. -/
structure Sound (s : State) : Prop where
  distinct : ∀ i k i' k', s.addr i k ≠ 0 → s.addr i k = s.addr i' k' → i = i' ∧ k = k'
  data : ∀ i k, s.addr i k ≠ 0 → s.sb.nmeta ≤ s.addr i k ∧ s.addr i k < s.sb.size
  marked : ∀ i k, s.addr i k ≠ 0 → s.bitmap (s.addr i k) = true
  metadata : ∀ b, b < s.sb.nmeta → s.bitmap b = true
  covers : ∀ i bn, (s.cur i).type ≠ 0 → bn < ((s.cur i).size + (BSIZE - 1)) / BSIZE → s.addr i (slotOf bn) ≠ 0

/-- The state of a file system between the calls: the table agrees with the disk, and there are no changes
to an indirect block that have not been logged. -/
structure Quiescent (s : State) : Prop where
  size_lt : s.sb.size < 2 ^ 31
  dinode : ∀ i, (s.inode i).valid = true → (s.inode i).dinode = s.dinode i ∧ (s.dinode i).type ≠ 0
  clean : ∀ i, s.addr i NDIRECT ≠ 0 → s.buf (s.addr i NDIRECT) = none

theorem blocks_lt (n bn : Nat) : bn < (n + (BSIZE - 1)) / BSIZE ↔ bn * BSIZE < n := by
  rw [Nat.lt_div_iff_mul_lt (by decide)]
  rw [BSIZE]
  omega

/-- The blocks that stay marked are the metadata and those that are leaked at the start. -/
theorem Sound.synced (h : Sound s) (hq : Quiescent s) : Synced s.sb (fun b => b < s.sb.nmeta ∨ s.Leaked b) s where
  sb := rfl
  allots := by
    constructor
    · intro a b ha hab
      exact Prod.ext_iff.2 (h.distinct a.1 a.2 b.1 b.2 ha hab)
    · exact fun ha => h.marked _ _ ha
    · exact fun ha => (h.data _ _ ha).2
    · intro a ha hk
      rcases hk with hk | hk
      · exact absurd (h.data _ _ ha).1 (Nat.not_le_of_lt hk)
      · exact hk.2.2 ⟨_, _, rfl, ha⟩
    · intro b _ hb
      by_cases hm : b < s.sb.nmeta
      · exact .inl (.inl hm)
      · by_cases hr : s.Referenced b
        · obtain ⟨i, k, rfl, h0⟩ := hr
          exact .inr ⟨(i, k), rfl, h0⟩
        · exact .inl (.inr ⟨Nat.le_of_not_lt hm, hb, hr⟩)
    · intro b hk
      rcases hk with hk | hk
      · exact h.metadata b hk
      · exact hk.2.1
  metadata _ hb := .inl hb
  size_lt := hq.size_lt
  covers i bn ht hbn := h.covers i bn ht ((blocks_lt _ bn).2 hbn)
  clean := hq.clean
  dinode i hv := (hq.dinode i hv).1
  type i hv := (hq.dinode i hv).2

theorem Good.sound (hg : Good kept s) (hk : ∀ b, b < s.sb.nmeta → kept b) : Sound s where
  distinct _ _ _ _ hne he := hg.slot_eq hne he
  data i k hne := by
    refine ⟨?_, hg.lt_size hne⟩
    by_contra hlt
    exact hg.allots.loose (a := (i, k)) hne (hk _ (Nat.lt_of_not_le hlt))
  marked i k hne := hg.allots.marked (a := (i, k)) hne
  metadata b hb := hg.allots.saved (hk b hb)
  covers i bn ht hbn := hg.covers i bn ht ((blocks_lt _ bn).1 hbn)

/-- In every run of the calls the blocks stay distinct, marked and enough for the sizes, and a block is marked
just when an inode refers to it or it is metadata, or was leaked before the run. No block is freed
twice. -/
theorem allocation_sound (h : Sound s) (hq : Quiescent s) (ops : List Op) :
    Wp (runWith step ops) Refused (fun _ t => Sound t ∧
      ∀ b, b < t.sb.size → (t.bitmap b = true ↔ t.Referenced b ∨ b < t.sb.nmeta ∨ s.Leaked b)) s := by
  apply (Wp.runWith (h.synced hq) (fun op _ ht => ht.step op) ops).mono
  intro _ t ht
  refine ⟨ht.toGood.sound fun b hb => ht.metadata b hb, fun b hb => ?_⟩
  rw [ht.allots.iff hb, ht.sb]
  constructor
  · intro hk
    rcases hk with hk | ⟨a, rfl, hne⟩
    · exact .inr hk
    · exact .inl ⟨a.1, a.2, rfl, hne⟩
  · intro hr
    rcases hr with ⟨i, k, rfl, hne⟩ | hk
    · exact .inr ⟨(i, k), rfl, hne⟩
    · exact .inl hk

theorem disk_sound : Sound disk := disk_good.sound fun _ => id

theorem disk_quiescent : Quiescent disk where
  size_lt := by decide
  dinode i hv := by
    by_cases hi : i = 2
    · subst hi
      exact ⟨rfl, by decide⟩
    · have hfalse : (disk.inode i).valid = false := by simp only [disk, if_neg hi]
      rw [hfalse] at hv
      cases hv
  clean _ _ := rfl

theorem allocation_sound_disk : Wp (runWith step [.writei 2 (.kernel fun _ => 7) 0 1 3, .iput 2]) Refused
    (fun _ t => Sound t ∧ ∀ b, b < t.sb.size →
      (t.bitmap b = true ↔ t.Referenced b ∨ b < t.sb.nmeta ∨ disk.Leaked b)) disk :=
  allocation_sound disk_sound disk_quiescent _

end PbsCow.Blocks

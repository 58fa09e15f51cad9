import PbsCow.BlockMap

namespace PbsCow.Blocks
open Files (BPB)
set_option autoImplicit true

/-- Everything is the same but the addresses of the inode, the blocks and what has been logged. -/
structure Alike (ip : Nat) (s t : State) : Prop where
  sb : t.sb = s.sb
  dinode : t.dinode = s.dinode
  room : t.room = s.room
  ended : t.ended = s.ended
  ref : (t.inode ip).ref = (s.inode ip).ref
  valid : (t.inode ip).valid = (s.inode ip).valid
  others : ∀ i, i ≠ ip → t.inode i = s.inode i
  type : (t.cur ip).type = (s.cur ip).type
  size : (t.cur ip).size = (s.cur ip).size
  nlink : (t.cur ip).nlink = (s.cur ip).nlink

namespace Alike

theorem refl (ip : Nat) (s : State) : Alike ip s s :=
  ⟨rfl, rfl, rfl, rfl, rfl, rfl, fun _ _ => rfl, rfl, rfl, rfl⟩

theorem trans (h : Alike ip s t) (h' : Alike ip t u) : Alike ip s u where
  sb := h'.sb.trans h.sb
  dinode := h'.dinode.trans h.dinode
  room := h'.room.trans h.room
  ended := h'.ended.trans h.ended
  ref := h'.ref.trans h.ref
  valid := h'.valid.trans h.valid
  others i hi := (h'.others i hi).trans (h.others i hi)
  type := h'.type.trans h.type
  size := h'.size.trans h.size
  nlink := h'.nlink.trans h.nlink

theorem cur (h : Alike ip s t) (hi : i ≠ ip) : t.cur i = s.cur i := by
  rw [State.cur, State.cur, h.others i hi, h.dinode]

theorem head (h : Alike ip s t) (i : Nat) : (t.cur i).type = (s.cur i).type ∧ (t.cur i).size = (s.cur i).size := by
  by_cases hi : i = ip
  · subst hi
    exact ⟨h.type, h.size⟩
  · rw [h.cur hi]
    exact ⟨rfl, rfl⟩

end Alike

/-- A free block, which holds zeroes now, has gone to a slot that had none. -/
structure Fills (ip k b : Nat) (s t : State) : Prop extends Alike ip s t where
  bitmap : t.bitmap = Function.update s.bitmap b true
  refs : t.ref = Function.update s.ref (ip, k) b
  old : s.addr ip k = 0
  pos : b ≠ 0
  lt : b < s.sb.size
  free : s.bitmap b = false
  zero : k ≠ NDIRECT → t.bread b = Block.zero
  bread : ∀ i j, s.addr i j ≠ 0 → j ≠ NDIRECT → t.bread (s.addr i j) = s.bread (s.addr i j)
  clean : t.buf b = none
  buf : ∀ x, t.buf x = none ∨ t.buf x = s.buf x
  fits : ∀ W, k ∈ W → (NDIRECT < k → NDIRECT ∈ W) → Fits ip W s → Fits ip W t

/-- What `bmap` does to a slot: the block is there, or there is no block left, or it takes one. -/
inductive Mapped (ip k : Nat) (s : State) : Nat → State → Prop
  | old (h : s.addr ip k ≠ 0) : Mapped ip k s (s.addr ip k) s
  | full (h : s.addr ip k = 0) (hf : s.free = 0) : Mapped ip k s 0 s
  | new (h : Fills ip k b s t) : Mapped ip k s b t

theorem Fills.addr (h : Fills ip k b s t) (i j : Nat) :
    t.addr i j = if i = ip ∧ j = k then b else s.addr i j := by
  have he := congrFun h.refs (i, j)
  rw [State.ref] at he
  rw [he]
  by_cases hij : i = ip ∧ j = k
  · rw [if_pos hij, hij.1, hij.2, Function.update_self]
  · rw [if_neg hij, Function.update_of_ne]
    · rfl
    · intro heq
      injection heq with h₁ h₂
      exact hij ⟨h₁, h₂⟩

theorem Fills.good (h : Fills ip k b s t) (hg : Good kept s) : Good kept t := by
  constructor
  · rw [h.refs, h.bitmap, h.sb]
    exact hg.allots.take h.old h.free h.lt h.pos
  · rw [h.sb]
    exact hg.metadata
  · rw [h.sb]
    exact hg.size_lt
  · intro i bn htype hbn
    rw [(h.head i).1] at htype
    rw [(h.head i).2] at hbn
    rw [h.addr]
    split
    · exact h.pos
    · exact hg.covers i bn htype hbn
  · intro i hi
    rw [h.addr] at hi ⊢
    split at hi
    · next hc =>
      rw [if_pos hc]
      exact h.clean
    · next hc =>
      rw [if_neg hc]
      rcases h.buf (s.addr i NDIRECT) with hb | hb
      · exact hb
      · rw [hb, hg.clean i hi]

/-- The slots of an inode that have blocks. -/
def State.filled (s : State) (ip : Nat) : Finset Nat :=
  (Finset.range (NDIRECT + NINDIRECT + 1)).filter fun k => s.addr ip k ≠ 0

/-- The inode keeps its blocks and takes free ones for slots in `W`; the other inodes keep their contents. -/
structure Keeps (ip : Nat) (W : Finset Nat) (s t : State) : Prop extends Alike ip s t where
  other : ∀ i k, i ≠ ip → t.addr i k = s.addr i k
  mono : ∀ k, s.addr ip k ≠ 0 → t.addr ip k = s.addr ip k
  only : ∀ k, t.addr ip k ≠ 0 → s.addr ip k ≠ 0 ∨ k ∈ W
  count : t.free + (t.filled ip).card = s.free + (s.filled ip).card
  blocks : ∀ i k, i ≠ ip → k ≠ NDIRECT → t.block i k = s.block i k
  fits : Fits ip W s → Fits ip W t

/-- The inode keeps its contents too. -/
structure Grows (ip : Nat) (W : Finset Nat) (s t : State) : Prop extends Keeps ip W s t where
  block : ∀ k, k ≠ NDIRECT → t.block ip k = s.block ip k

namespace Keeps

theorem refl (ip : Nat) (W : Finset Nat) (s : State) : Keeps ip W s s :=
  ⟨.refl ip s, fun _ _ _ => rfl, fun _ _ => rfl, fun _ h => .inl h, rfl, fun _ _ _ _ => rfl, id⟩

theorem trans (h : Keeps ip W s t) (h' : Keeps ip W t u) : Keeps ip W s u where
  toAlike := h.toAlike.trans h'.toAlike
  other i k hi := (h'.other i k hi).trans (h.other i k hi)
  mono k hk := by
    have hm := h.mono k hk
    rw [← hm] at hk
    exact (h'.mono k hk).trans hm
  only k hk := (h'.only k hk).elim (h.only k) .inr
  count := h'.count.trans h.count
  blocks i k hi hk := (h'.blocks i k hi hk).trans (h.blocks i k hi hk)
  fits hf := h'.fits (h.fits hf)

theorem overrun (h : Keeps ip W s t) (he : Over ip W t e) : Over ip W s e := 
  ⟨he.1, fun hf => he.2 ⟨h.fits hf.1, by rw [h.room]; exact hf.2⟩⟩

end Keeps

namespace Grows

theorem refl (ip : Nat) (W : Finset Nat) (s : State) : Grows ip W s s := ⟨.refl ip W s, fun _ _ => rfl⟩

theorem trans (h : Grows ip W s t) (h' : Grows ip W t u) : Grows ip W s u where
  toKeeps := h.toKeeps.trans h'.toKeeps
  block k hk := (h'.block k hk).trans (h.block k hk)

end Grows

theorem Fills.block (h : Fills ip k b s t) (i j : Nat) (hj : j ≠ NDIRECT) : t.block i j = s.block i j := by
  rw [State.block, State.block, h.addr]
  by_cases hc : i = ip ∧ j = k
  · rw [if_pos hc, if_neg h.pos, hc.1, hc.2, h.old, if_pos rfl, h.zero]
    rw [← hc.2]
    exact hj
  · rw [if_neg hc]
    by_cases h0 : s.addr i j = 0
    · rw [if_pos h0, if_pos h0]
    · rw [if_neg h0, if_neg h0, h.bread i j h0 hj]

theorem Fills.free_succ (h : Fills ip k b s t) : t.free + 1 = s.free := by
  have hchange := countBelow_change (fun x => !s.bitmap x) (fun x => !t.bitmap x) h.lt (by
    intro j hj
    rw [h.bitmap, Function.update_of_ne hj])
  rw [h.free, h.bitmap, Function.update_self] at hchange
  rw [State.free, State.free, h.sb, h.bitmap]
  exact hchange

theorem Fills.filled (h : Fills ip k b s t) (hk : k ≤ NDIRECT + NINDIRECT) : t.filled ip = insert k (s.filled ip) := by
  ext j
  rw [State.filled, State.filled, Finset.mem_insert, Finset.mem_filter, Finset.mem_filter, Finset.mem_range, h.addr]
  by_cases hjk : j = k
  · rw [if_pos ⟨rfl, hjk⟩]
    exact ⟨fun _ => .inl hjk, fun _ => ⟨by omega, h.pos⟩⟩
  · rw [if_neg fun hc => hjk hc.2]
    exact ⟨.inr, fun hj => hj.resolve_left hjk⟩

theorem Fills.grows (h : Fills ip k b s t) (hlast : k ≤ NDIRECT + NINDIRECT) (hk : k ∈ W)
    (hI : NDIRECT < k → NDIRECT ∈ W) : Grows ip W s t where
  toAlike := h.toAlike
  other i j hi := by rw [h.addr, if_neg fun hc => hi hc.1]
  mono j hj := by
    rw [h.addr, if_neg]
    intro hc
    rw [hc.2] at hj
    exact hj h.old
  only j hj := by
    by_cases hjk : j = k
    · exact .inr (hjk ▸ hk)
    · rw [h.addr, if_neg fun hc => hjk hc.2] at hj
      exact .inl hj
  count := by
    have hfree := h.free_succ
    have hnew : k ∉ s.filled ip := fun hm => (Finset.mem_filter.1 hm).2 h.old
    rw [h.filled hlast, Finset.card_insert_of_notMem hnew]
    omega
  blocks i j _ hj := h.block i j hj
  block j hj := h.block ip j hj
  fits := h.fits W hk hI

section Mapped

variable (h : Mapped ip k s a t)
include h

theorem Mapped.good (hg : Good kept s) : Good kept t := by
  cases h with
  | old => exact hg
  | full => exact hg
  | new hf => exact hf.good hg

theorem Mapped.grows (hlast : k ≤ NDIRECT + NINDIRECT) (hk : k ∈ W) (hI : NDIRECT < k → NDIRECT ∈ W) :
    Grows ip W s t := by
  cases h with
  | old => exact .refl ip W s
  | full => exact .refl ip W s
  | new hf => exact hf.grows hlast hk hI

theorem Mapped.addr : a = t.addr ip k := by
  cases h with
  | old => rfl
  | full h0 => exact h0.symm
  | new hf => rw [hf.addr, if_pos ⟨rfl, rfl⟩]

end Mapped

theorem inode_setDinode (s : State) (ip : Nat) (f : Dinode → Dinode) :
    (s.setDinode ip f).inode ip = { s.inode ip with dinode := f (s.inode ip).dinode } :=
  Function.update_self ..

theorem cur_setDinode (s : State) (f : Dinode → Dinode) (hv : (s.inode ip).valid = true) :
    (s.setDinode ip f).cur ip = f (s.cur ip) := by
  rw [State.cur, State.cur, inode_setDinode, if_pos hv, if_pos hv]

theorem cur_setDinode_of_ne (s : State) (f : Dinode → Dinode) (hi : i ≠ ip) :
    (s.setDinode ip f).cur i = s.cur i := by
  have hother : (s.setDinode ip f).inode i = s.inode i := Function.update_of_ne hi ..
  rw [State.cur, State.cur, hother]
  rfl

theorem alike_setDinode (s : State) {f : Dinode → Dinode} (hv : (s.inode ip).valid = true)
    (hf : ∀ d, (f d).type = d.type ∧ (f d).size = d.size ∧ (f d).nlink = d.nlink) :
    Alike ip s (s.setDinode ip f) where
  sb := rfl
  dinode := rfl
  room := rfl
  ended := rfl
  ref := by rw [inode_setDinode]
  valid := by rw [inode_setDinode]
  others i hi := Function.update_of_ne hi ..
  type := by rw [cur_setDinode s f hv, (hf _).1]
  size := by rw [cur_setDinode s f hv, (hf _).2.1]
  nlink := by rw [cur_setDinode s f hv, (hf _).2.2]

theorem alike_took (s : State) (ip b : Nat) : Alike ip s (s.took b) :=
  ⟨rfl, rfl, rfl, rfl, rfl, rfl, fun _ _ => rfl, rfl, rfl, rfl⟩

/-- The addresses of an inode depend on its copy in force and on its indirect block. -/
theorem addr_congr {s t : State} (hc : t.cur i = s.cur i)
    (hb : s.addr i NDIRECT ≠ 0 → t.bread (s.addr i NDIRECT) = s.bread (s.addr i NDIRECT)) (j : Nat) :
    t.addr i j = s.addr i j := by
  rw [State.addr, State.addr, hc]
  by_cases ht : (s.cur i).type = 0
  · rw [if_pos ht, if_pos ht]
  · rw [if_neg ht, if_neg ht]
    by_cases hj : j ≤ NDIRECT
    · rw [if_pos hj, if_pos hj]
    · rw [if_neg hj, if_neg hj]
      by_cases h0 : (s.cur i).addrs NDIRECT = 0 ∨ NDIRECT + NINDIRECT < j
      · rw [if_pos h0, if_pos h0]
      · have hi : s.addr i NDIRECT = (s.cur i).addrs NDIRECT := by
          rw [State.addr, if_neg ht, if_pos (Nat.le_refl _)]
        rw [if_neg h0, if_neg h0, ← hi, hb]
        rw [hi]
        exact fun he => h0 (.inl he)

section allocating

variable (hg : Good kept s) (hv : (s.inode ip).valid = true) (ht : (s.cur ip).type ≠ 0)
include hg

theorem Good.pos_of_free (hb : s.bitmap b = false) : b ≠ 0 := by
  rintro rfl
  have hk := hg.metadata 0 (Nat.lt_of_lt_of_le (Nat.succ_pos _) (Nat.le_add_left ..))
  rw [hg.allots.saved hk] at hb
  cases hb

theorem Good.ne_of_free (hb : s.bitmap b = false) (hne : s.addr i j ≠ 0) : s.addr i j ≠ b :=
  hg.allots.not_ref (a := (i, j)) hb hne

theorem Good.slot_eq (hne : s.addr i j ≠ 0) (he : s.addr i j = s.addr i' j') : i = i' ∧ j = j' := by
  have hij := hg.allots.inj (a := (i, j)) (b := (i', j')) hne he
  injection hij with h₁ h₂
  exact ⟨h₁, h₂⟩

theorem Good.lt_size (hne : s.addr i j ≠ 0) : s.addr i j < s.sb.size := hg.allots.lt (a := (i, j)) hne

omit hg in
theorem State.free_eq_zero (hall : ∀ b, b < s.sb.size → s.bitmap b = true) : s.free = 0 := by
  rw [State.free, ← countBelow_false s.sb.size]
  apply countBelow_congr
  intro b hb
  rw [hall b hb]
  rfl

omit hg in
theorem nodup_log (hn : s.logged.Nodup) (b : Nat) : (s.log b).logged.Nodup := by
  simp only [State.log]
  split
  · exact hn
  · next hb => exact hn.append (List.nodup_singleton b) (List.disjoint_singleton.2 hb)

omit hg in
theorem Fits.fill (h : Fits ip W s) (hsb : t.sb = s.sb) (hn : t.logged.Nodup)
    (hold : s.addr ip k = 0) (hlt : b < s.sb.size) (hk : k ∈ W) (hI : NDIRECT < k → NDIRECT ∈ W) (hpos : b ≠ 0)
    (haddr : ∀ j, t.addr ip j = if j = k then b else s.addr ip j)
    (hlog : ∀ x ∈ t.logged, x = b ∨ x = BBLOCK b s.sb ∨ x ∈ s.logged ∨
      NDIRECT < k ∧ x = t.addr ip NDIRECT ∧ x ≠ 0) :
    Fits ip W t := by
  refine ⟨?_, hn, ?_⟩
  · rw [hsb]
    exact h.size
  · intro x hx
    rw [hsb]
    rcases hlog x hx with rfl | rfl | hx | hx
    · exact .inr (.inr ⟨k, hk, by rw [haddr, if_pos rfl], hpos⟩)
    · have hsize := h.size
      rw [BBLOCK, Nat.div_eq_of_lt (Nat.lt_of_lt_of_le hlt hsize), Nat.zero_add]
      exact .inl rfl
    · rcases h.logged x hx with he | he | ⟨j, hj, he, hne⟩
      · exact .inl he
      · exact .inr (.inl he)
      · refine .inr (.inr ⟨j, hj, ?_, hne⟩)
        rw [haddr, if_neg, he]
        rintro rfl
        exact hne (he.trans hold)
    · exact .inr (.inr ⟨NDIRECT, hI hx.1, hx.2⟩)

include hv ht

theorem fills_addr (hk : k ≤ NDIRECT) (h0 : s.addr ip k = 0) (hlt : b < s.sb.size) (hb : s.bitmap b = false) :
    Fills ip k b s ((s.took b).setDinode ip fun d => d.setAddr k b) := by
  obtain ⟨t, hteq⟩ : ∃ t, t = (s.took b).setDinode ip fun d => d.setAddr k b := ⟨_, rfl⟩
  rw [← hteq]
  have htcur : t.cur ip = (s.cur ip).setAddr k b := by
    rw [hteq]
    exact cur_setDinode (s.took b) _ hv
  have hold {j : Nat} (hj : j ≠ k) : ((s.cur ip).setAddr k b).addrs j = (s.cur ip).addrs j :=
    Function.update_of_ne hj ..
  have hnew : ((s.cur ip).setAddr k b).addrs k = b := Function.update_self ..
  have htype : ((s.cur ip).setAddr k b).type ≠ 0 := ht
  have hdirect {j : Nat} (hj : j ≤ NDIRECT) : s.addr ip j = (s.cur ip).addrs j := by
    rw [State.addr, if_neg ht, if_pos hj]
  have hread (x : Nat) : t.bread x = if x = b then Block.zero else s.bread x := by
    rw [hteq]
    exact bread_took s b x
  have hpos := hg.pos_of_free hb
  have haddr (i j : Nat) : t.addr i j = if i = ip ∧ j = k then b else s.addr i j := by
    by_cases hi : i = ip
    · subst hi
      by_cases hjk : j = k
      · rw [if_pos ⟨rfl, hjk⟩, State.addr, htcur, if_neg htype, hjk, if_pos hk, hnew]
      · rw [if_neg fun hc => hjk hc.2]
        by_cases hj : j ≤ NDIRECT
        · rw [State.addr, htcur, if_neg htype, if_pos hj, hold hjk, hdirect hj]
        · rw [State.addr, htcur, if_neg htype, if_neg hj, State.addr, if_neg ht, if_neg hj]
          by_cases hkI : k = NDIRECT
          · -- an indirect block that is new has no entries
            subst hkI
            rw [hdirect (Nat.le_refl _)] at h0
            rw [hnew, hread, if_pos rfl, if_pos (c := (s.cur i).addrs NDIRECT = 0 ∨ _) (.inl h0)]
            split <;> rfl
          · rw [hold (Ne.symm hkI)]
            by_cases hind : (s.cur i).addrs NDIRECT = 0 ∨ NDIRECT + NINDIRECT < j
            · rw [if_pos hind, if_pos hind]
            · have hne : (s.cur i).addrs NDIRECT ≠ b := by
                rw [← hdirect (Nat.le_refl _)]
                apply hg.ne_of_free hb
                rw [hdirect (Nat.le_refl _)]
                exact fun h => hind (.inl h)
              rw [if_neg hind, if_neg hind, hread, if_neg hne]
    · rw [if_neg fun hc => hi hc.1]
      apply addr_congr
      · rw [hteq, cur_setDinode_of_ne _ _ hi]
        rfl
      · intro hne
        rw [hread, if_neg (hg.ne_of_free hb hne)]
  constructor
  · rw [hteq]
    exact (alike_took s ip b).trans (alike_setDinode (s.took b) hv fun _ => ⟨rfl, rfl, rfl⟩)
  · rw [hteq]
    rfl
  · funext a
    rw [State.ref, haddr]
    by_cases ha : a = (ip, k)
    · rw [ha, Function.update_self, if_pos ⟨rfl, rfl⟩]
    · rw [Function.update_of_ne ha, if_neg]
      · rfl
      · intro hc
        exact ha (Prod.ext hc.1 hc.2)
  · exact h0
  · exact hpos
  · exact hlt
  · exact hb
  · intro _
    rw [hread, if_pos rfl]
  · intro i j hne _
    rw [hread, if_neg (hg.ne_of_free hb hne)]
  · rw [hteq]
    exact Function.update_self ..
  · intro x
    rw [hteq]
    exact buf_took s b x
  · intro W hkW hI hf
    apply hf.fill (k := k) (b := b) _ _ h0 hlt hkW hI hpos
    · intro j
      rw [haddr]
      simp only [true_and]
    · intro x hx
      rw [hteq] at hx
      rcases (mem_took s b).1 hx with h | h | h
      · exact .inl h
      · exact .inr (.inl h)
      · exact .inr (.inr (.inl h))
    · rw [hteq]
      rfl
    · rw [hteq]
      exact nodup_log (s := ((s.mark b true).log _).put b Block.zero) (nodup_log (s := s.mark b true) hf.nodup _) _

theorem fills_entry (hne : s.addr ip NDIRECT ≠ 0) (hj : j < NINDIRECT) (h0 : s.addr ip (NDIRECT + 1 + j) = 0)
    (hlt : b < s.sb.size) (hb : s.bitmap b = false) :
    Fills ip (NDIRECT + 1 + j) b s (((s.took b).put (s.addr ip NDIRECT)
      (((s.took b).bread (s.addr ip NDIRECT)).setUint j b)).log (s.addr ip NDIRECT)) := by
  obtain ⟨t, hteq⟩ : ∃ t, t = ((s.took b).put (s.addr ip NDIRECT)
      (((s.took b).bread (s.addr ip NDIRECT)).setUint j b)).log (s.addr ip NDIRECT) := ⟨_, rfl⟩
  rw [← hteq]
  have hb_ne : s.addr ip NDIRECT ≠ b := hg.ne_of_free hb hne
  have hcur (i : Nat) : t.cur i = s.cur i := by
    rw [hteq]
    rfl
  have hread (x : Nat) : t.bread x = if x = s.addr ip NDIRECT then (s.bread x).setUint j b
      else if x = b then Block.zero else s.bread x := by
    rw [hteq, bread_log, bread_put, bread_took, if_neg hb_ne, bread_took]
    split
    · next he => rw [he]
    · rfl
  have hpos := hg.pos_of_free hb
  have hlt32 : b < 2 ^ 32 := by
    have hs := hg.size_lt
    omega
  have hind : (s.cur ip).addrs NDIRECT = s.addr ip NDIRECT := by
    rw [State.addr, if_neg ht, if_pos (Nat.le_refl _)]
  have haddr (i l : Nat) : t.addr i l = if i = ip ∧ l = NDIRECT + 1 + j then b else s.addr i l := by
    by_cases hi : i = ip
    · subst hi
      by_cases hl : l ≤ NDIRECT
      · rw [if_neg (by omega), State.addr, hcur, State.addr, if_neg ht, if_neg ht, if_pos hl, if_pos hl]
      · by_cases hlast : NDIRECT + NINDIRECT < l
        · rw [if_neg (by omega), State.addr, hcur, State.addr, if_neg ht, if_neg ht, if_neg hl, if_neg hl,
            if_pos (.inr hlast), if_pos (.inr hlast)]
        · have hboth : ¬((s.cur i).addrs NDIRECT = 0 ∨ NDIRECT + NINDIRECT < l) := by
            rw [hind]
            exact fun h => h.elim hne hlast
          rw [State.addr, hcur, State.addr, if_neg ht, if_neg ht, if_neg hl, if_neg hl, if_neg hboth, if_neg hboth,
            hind, hread, if_pos rfl, Block.uint_setUint _ _ _ hlt32]
          by_cases he : l = NDIRECT + 1 + j
          · rw [if_pos (by omega), if_pos ⟨rfl, he⟩]
          · rw [if_neg (by omega), if_neg fun h => he h.2]
    · rw [if_neg fun hc => hi hc.1]
      apply addr_congr (hcur i)
      intro hn
      have hsame : s.addr i NDIRECT ≠ s.addr ip NDIRECT := fun he => hi (hg.slot_eq hn he).1
      rw [hread, if_neg hsame, if_neg (hg.ne_of_free hb hn)]
  constructor
  · rw [hteq]
    exact ⟨rfl, rfl, rfl, rfl, rfl, rfl, fun _ _ => rfl, rfl, rfl, rfl⟩
  · rw [hteq]
    rfl
  · funext a
    rw [State.ref, haddr]
    by_cases ha : a = (ip, NDIRECT + 1 + j)
    · rw [ha, Function.update_self, if_pos ⟨rfl, rfl⟩]
    · rw [Function.update_of_ne ha, if_neg]
      · rfl
      · intro hc
        exact ha (Prod.ext hc.1 hc.2)
  · exact h0
  · exact hpos
  · exact hlt
  · exact hb
  · intro _
    rw [hread, if_neg hb_ne.symm, if_pos rfl]
  · intro i l hn hl
    have hsame : s.addr i l ≠ s.addr ip NDIRECT := fun he => hl (hg.slot_eq hn he).2
    rw [hread, if_neg hsame, if_neg (hg.ne_of_free hb hn)]
  · rw [hteq]
    rcases buf_log ((s.took b).put (s.addr ip NDIRECT) (((s.took b).bread (s.addr ip NDIRECT)).setUint j b))
      (s.addr ip NDIRECT) b with h | h
    · exact h
    · rw [h]
      exact (Function.update_of_ne hb_ne.symm ..).trans (Function.update_self ..)
  · intro x
    by_cases hx : x = s.addr ip NDIRECT
    · rw [hteq, hx]
      exact .inl (Function.update_self ..)
    · have hput : t.buf x = (s.took b).buf x := by
        rw [hteq]
        exact (Function.update_of_ne hx ..).trans (Function.update_of_ne hx ..)
      rw [hput]
      exact buf_took s b x
  · intro W hkW hI hf
    apply hf.fill (k := NDIRECT + 1 + j) (b := b) _ _ h0 hlt hkW hI hpos
    · intro l
      rw [haddr]
      simp only [true_and]
    · intro x hx
      have hlast : t.addr ip NDIRECT = s.addr ip NDIRECT := by rw [haddr, if_neg (by omega)]
      rw [hteq] at hx
      rcases (mem_logged ((s.took b).put _ _) _).1 hx with h | h
      · exact .inr (.inr (.inr ⟨by omega, h.trans hlast.symm, by rwa [h]⟩))
      · rcases (mem_took s b).1 h with h | h | h
        · exact .inl h
        · exact .inr (.inl h)
        · exact .inr (.inr (.inl h))
    · rw [hteq]
      rfl
    · rw [hteq]
      have h₁ : ((s.mark b true).log (BBLOCK b s.sb)).logged.Nodup := nodup_log hf.nodup _
      have h₂ : (s.took b).logged.Nodup :=
        nodup_log (s := ((s.mark b true).log (BBLOCK b s.sb)).put b Block.zero) h₁ _
      exact nodup_log (s := (s.took b).put _ _) h₂ _

theorem wp_mapAddr (hk : k ≤ NDIRECT) (hW : k ∈ W) : Wp (mapAddr ip k) (Over ip W s) (fun a t => Mapped ip k s a t) s := by
  have haddr : s.addr ip k = (s.inode ip).dinode.addrs k := by
    rw [State.addr, if_neg ht, if_pos hk, State.cur, if_pos hv]
  rw [mapAddr, wp_bind, wp_get]
  apply Wp.ite
  · intro hne
    apply wp_pure.2
    rw [← haddr] at hne ⊢
    exact .old hne
  · intro h0
    rw [← haddr, not_not] at h0
    rw [wp_bind]
    apply wp_balloc
    · intro hlen
      refine ⟨rfl, fun hf => ?_⟩
      have hless := hf.1.length_lt hW h0
      have hroom := hf.2
      omega
    · intro hall
      apply Wp.ite_pos rfl
      exact wp_pure.2 (.full h0 (s.free_eq_zero hall))
    · intro b hlt hb
      apply Wp.ite_neg (hg.pos_of_free hb)
      rw [wp_bind, setAddr, setDinode, wp_modify]
      exact wp_pure.2 (.new (fills_addr hg hv ht hk h0 hlt hb))

theorem wp_mapEntry (hne : s.addr ip NDIRECT ≠ 0) (hj : j < NINDIRECT) (hW : NDIRECT + 1 + j ∈ W) (hI : NDIRECT ∈ W) :
    Wp (mapEntry (s.addr ip NDIRECT) j) (Over ip W s) (fun a t => Mapped ip (NDIRECT + 1 + j) s a t) s := by
  have hind : (s.cur ip).addrs NDIRECT = s.addr ip NDIRECT := by
    rw [State.addr, if_neg ht, if_pos (Nat.le_refl _)]
  have haddr : s.addr ip (NDIRECT + 1 + j) = (s.bread (s.addr ip NDIRECT)).uint j := by
    rw [State.addr, if_neg ht, if_neg (by omega), hind, if_neg (by omega), Nat.add_sub_cancel_left]
  rw [mapEntry, wp_bind, wp_get]
  apply Wp.ite
  · intro h
    apply wp_pure.2
    rw [← haddr] at h ⊢
    exact .old h
  · intro h0
    rw [← haddr, not_not] at h0
    rw [wp_bind]
    apply wp_balloc
    · intro hlen
      refine ⟨rfl, fun hf => ?_⟩
      have hless := hf.1.length_lt hW h0
      have hroom := hf.2
      omega
    · intro hall
      apply Wp.ite_pos rfl
      exact wp_pure.2 (.full h0 (s.free_eq_zero hall))
    · intro b hlt hb
      apply Wp.ite_neg (hg.pos_of_free hb)
      rw [wp_bind, setBuf, wp_modify, wp_bind]
      have hfill := fills_entry hg hv ht hne hj h0 hlt hb
      apply wp_logWrite
      · intro hlen
        refine ⟨rfl, fun hf => ?_⟩
        have hmax := (hfill.fits W hW (fun _ => hI) hf.1).length
        have hroom := hf.2
        have hmore := length_le_log ((s.took b).put (s.addr ip NDIRECT)
          (((s.took b).bread (s.addr ip NDIRECT)).setUint j b)) (s.addr ip NDIRECT)
        have hlen' : s.room ≤ (s.took b).logged.length := hlen
        have hmore' : (s.took b).logged.length ≤ _ := hmore
        omega
      · intro _
        exact wp_pure.2 (.new hfill)

end allocating

/-- What `bmap` does. -/
structure Found (ip bn : Nat) (W : Finset Nat) (kept : Nat → Prop) (s : State) (b : Nat) (t : State) : Prop
    extends Grows ip W s t where
  good : Good kept t
  addr : b = t.addr ip (slotOf bn)
  full : b = 0 → t.free = 0

theorem slotOf_direct (h : bn < NDIRECT) : slotOf bn = bn := if_pos h

theorem slotOf_indirect (h : ¬bn < NDIRECT) : slotOf bn = NDIRECT + 1 + (bn - NDIRECT) := by
  rw [slotOf, if_neg h]
  omega

theorem slotOf_ne (bn : Nat) : slotOf bn ≠ NDIRECT := by
  rw [slotOf]
  split <;> omega

theorem slotOf_inj (h : slotOf bn = slotOf bn') : bn = bn' := by
  rw [slotOf, slotOf] at h
  split at h <;> split at h <;> omega

theorem Mapped.full_free (h : Mapped ip k s a t) (ha : a = 0) : t.free = 0 := by
  cases h with
  | old h0 => exact absurd ha h0
  | full _ hf => exact hf
  | new hf => exact absurd ha hf.pos

theorem wp_bmap (hg : Good kept s) (hv : (s.inode ip).valid = true) (ht : (s.cur ip).type ≠ 0) (hbn : bn < MAXFILE)
    (hW : slotOf bn ∈ W) (hI : NDIRECT ≤ bn → NDIRECT ∈ W) :
    Wp (bmap ip bn) (Over ip W s) (fun b t => Found ip bn W kept s b t) s := by
  rw [bmap]
  by_cases hd : bn < NDIRECT
  · apply Wp.ite_pos hd
    rw [slotOf_direct hd] at hW
    apply (wp_mapAddr hg hv ht (Nat.le_of_lt hd) hW).mono
    intro a t hm
    refine ⟨hm.grows (by omega) hW fun h => ?_, hm.good hg, ?_, hm.full_free⟩
    · exact absurd h (Nat.not_lt_of_lt hd)
    · rw [slotOf_direct hd]
      exact hm.addr
  · apply Wp.ite_neg hd
    have hI := hI (Nat.le_of_not_lt hd)
    rw [slotOf_indirect hd] at hW
    have hj : bn - NDIRECT < NINDIRECT := by
      rw [MAXFILE] at hbn
      omega
    apply Wp.ite_pos hj
    apply (wp_mapAddr hg hv ht (Nat.le_refl _) hI).bind
    intro ind t hm
    have hgrow : Grows ip W s t := hm.grows (by omega) hI fun _ => hI
    have hgood := hm.good hg
    have ht' : (t.cur ip).type ≠ 0 := by rwa [hgrow.type]
    have hv' : (t.inode ip).valid = true := by rw [hgrow.valid, hv]
    have hind := hm.addr
    have hfull := hm.full_free
    clear hm
    subst hind
    apply Wp.ite
    · intro h0
      apply wp_pure.2
      refine ⟨hgrow, hgood, ?_, fun _ => hfull h0⟩
      rw [State.addr, if_neg ht', if_pos (Nat.le_refl _)] at h0
      rw [slotOf_indirect hd, State.addr, if_neg ht', if_neg (by omega), if_pos (.inl h0)]
    · intro hne
      apply ((wp_mapEntry hgood hv' ht' hne hj hW hI).weaken fun _ he => hgrow.overrun he).mono
      intro b u hm
      refine ⟨hgrow.trans (hm.grows (by omega) hW fun _ => hI), hm.good hgood, ?_, hm.full_free⟩
      rw [slotOf_indirect hd]
      exact hm.addr

end PbsCow.Blocks

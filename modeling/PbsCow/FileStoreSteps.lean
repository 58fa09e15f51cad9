import PbsCow.FileStore

namespace PbsCow.Blocks
set_option autoImplicit true

variable {sb : Superblock} {kept : Nat → Prop} {s t : State} {ip : Nat}

theorem file_some (ht : (s.cur i).type ≠ 0) :
    s.file i = some ⟨(s.cur i).type, (s.cur i).nlink, s.content i⟩ := if_neg ht

theorem file_congr (hc : t.cur i = s.cur i) (hb : ∀ x, t.byteAt i x = s.byteAt i x) : t.file i = s.file i := by
  rw [State.file, hc, content_congr hc hb]
  rfl

theorem byteAt_of_bread (hc : t.cur i = s.cur i) (hb : t.bread = s.bread) (x : Nat) : t.byteAt i x = s.byteAt i x := by
  have haddr (k : Nat) : t.addr i k = s.addr i k := addr_congr hc (fun _ => by rw [hb]) k
  rw [State.byteAt, State.block, haddr, hb]
  rfl

theorem file_of_bread (hc : t.cur i = s.cur i) (hb : t.bread = s.bread) : t.file i = s.file i :=
  file_congr hc (byteAt_of_bread hc hb)

theorem file_update (hself : t.file ip = v) (hother : ∀ i, i ≠ ip → t.file i = s.file i) :
    t.file = Function.update s.file ip v := by
  funext i
  by_cases hi : i = ip
  · rw [hi, Function.update_self, hself]
  · rw [Function.update_of_ne hi, hother i hi]

/-- The disk is as it was. -/
def Steady (s t : State) : Prop := t.dinode = s.dinode ∧ t.bread = s.bread

theorem Synced.file_eq (h : Synced sb kept s) (h' : Synced sb kept t) (hsame : Steady s t) : t.file = s.file := by
  funext i
  apply file_of_bread
  · rw [h'.cur, h.cur, hsame.1]
  · exact hsame.2

theorem steady_ilock (s : State) (ip : Nat) : Maintains (Steady s) (ilock ip) := by
  apply Maintains.get
  intro u _
  apply Maintains.ite
  · exact fun _ => maintains_throw _
  · intro _
    apply Maintains.ite
    · intro _
      apply Maintains.modify
      · exact fun _ ht => ht
      · apply Maintains.ite
        · exact fun _ => maintains_throw _
        · exact fun _ => maintains_pure _
    · exact fun _ => maintains_pure _

theorem steady_iget (s : State) (inum : Nat) : Maintains (Steady s) (iget inum) := by
  apply Maintains.modify
  · exact fun _ ht => ht
  · exact maintains_pure _

/-- What `ilock` leaves to the calls that need the inode. -/
structure Locked (sb : Superblock) (kept : Nat → Prop) (ip : Nat) (s t : State) : Prop extends Synced sb kept t where
  valid : (t.inode ip).valid = true
  live : (t.cur ip).type ≠ 0
  file : t.file = s.file

theorem wp_ilock_locked (h : Synced sb kept s) : Wp (ilock ip) Refused (fun _ t => Locked sb kept ip s t) s := by
  apply ((wp_ilock h).and (steady_ilock s ip s ⟨rfl, rfl⟩)).mono
  intro _ t ht
  exact ⟨ht.1.1, ht.1.2.1, ht.1.2.2, h.file_eq ht.1.1 ht.2⟩

/-- The file of an inode that is locked. -/
theorem Locked.file_self (h : Locked sb kept ip s t) :
    s.file ip = some ⟨(t.cur ip).type, (t.cur ip).nlink, t.content ip⟩ := by
  rw [← h.file]
  exact file_some h.live

theorem length_content (s : State) (ip : Nat) : (s.content ip).length = (s.cur ip).size := by
  rw [State.content, List.length_map, List.length_range]

theorem splice_nil (old : List Byte) (off : Nat) : splice old off [] = old := by
  rw [splice, List.append_nil, List.length_nil, Nat.add_zero, List.take_append_drop]

theorem Locked.writei (h : Locked sb kept ip s t) {src : Src} (hsrc : ∀ i, i < n.toNat → src.byte? (a + i) ≠ none) :
    Wp (writei ip src a off n) Refused (fun r u => Synced sb kept u ∧
      Store.Step sb.ninodes (.writei ip src a off n) s.file (.count r) u.file) t := by
  obtain ⟨W, hW⟩ := exists_spans off.toNat n.toNat
  have hwrite := wp_writei h.toGood h.valid h.live src a off n hW
  apply ((h.toSynced.writei h.valid h.live src a off n).and hwrite).mono
  intro r u hr
  obtain ⟨hsynced, hr⟩ := hr
  refine ⟨hsynced, ?_⟩
  rcases hr with ⟨hrefuse, rfl, rfl⟩ | ⟨haccept, m, p, v, rfl, hw, hfin⟩
  · rw [h.file]
    apply Store.Step.refuse h.file_self
    rw [length_content]
    exact hrefuse
  · rw [State.Refuses, not_or, Nat.not_lt, Nat.not_lt] at haccept
    have hle := hw.le
    have hp : p = 0 := by
      by_cases hm : m = n.toNat
      · exact hw.done hm
      · rcases hw.short (by omega) with ⟨hnone, hlt, -, -⟩ | ⟨hp, -, -⟩
        · exact absurd hnone (hsrc _ hlt)
        · exact hp
    have hself : u.file ip = some ⟨(t.cur ip).type, (t.cur ip).nlink,
        splice (t.content ip) off.toNat (src.bytes a m)⟩ := by
      have htype : (u.cur ip).type = (t.cur ip).type := by rw [hfin.type, hw.type]
      rw [file_some (by rw [htype]; exact h.live), htype, hfin.nlink, hw.nlink]
      congr 2
      apply content_splice haccept.1
      · rw [hfin.size, hw.size]
      · intro x
        rw [hfin.byteAt, hw.bytes x, hp]
        rfl
    have hother (i : Nat) (hi : i ≠ ip) : u.file i = s.file i := by
      rw [← h.file]
      apply file_congr
      · rw [hfin.cur hi, hw.cur hi]
      · intro x
        rw [hfin.byteAt, hw.toKeeps.byteAt hi]
    rw [file_update hself hother]
    apply Store.Step.write m h.file_self
    · rw [length_content]
      exact haccept.1
    · exact haccept.2
    · by_cases hm : m = n.toNat
      · exact .inl hm
      · right
        refine ⟨by omega, ?_⟩
        rcases hw.aligned with h₀ | h₀ | h₀
        · exact .inl h₀
        · exact absurd h₀ hm
        · exact .inr h₀

theorem Locked.readi (h : Locked sb kept ip s t) (hout : ∀ a m, out a m = true) :
    Wp (readi ip out dst off n) Refused (fun r u => Synced sb kept u ∧
      Store.Step sb.ninodes (.readi ip out dst off n) s.file (.bytes r) u.file) t := by
  apply (wp_readi h.valid h.toGood h.live out dst off n).mono
  intro r u hr
  obtain ⟨rfl, hr⟩ := hr
  refine ⟨h.toSynced, ?_⟩
  rw [hr hout, h.file]
  exact .read h.file_self

theorem Locked.itrunc (h : Locked sb kept ip s t) : Wp (itrunc ip) Refused (fun _ u => Synced sb kept u ∧
    Store.Step sb.ninodes (.itrunc ip) s.file .none u.file) t := by
  apply ((h.toSynced.itrunc h.valid h.live).and (wp_itrunc h.toGood h.valid h.live)).mono
  intro _ u hu
  obtain ⟨hsynced, htr⟩ := hu
  refine ⟨hsynced, ?_⟩
  have hself : u.file ip = some ⟨(t.cur ip).type, (t.cur ip).nlink, []⟩ := by
    rw [file_some (by rw [htr.type]; exact h.live), htr.type, htr.nlink, State.content, htr.size]
    rfl
  have hother (i : Nat) (hi : i ≠ ip) : u.file i = s.file i := by
    rw [← h.file]
    apply file_of_bread
    · rw [State.cur, htr.others i hi, htr.dinode, Function.update_of_ne hi]
      rfl
    · exact htr.bread
  rw [file_update hself hother]
  exact .itrunc h.file_self

theorem Locked.setNlink (h : Locked sb kept ip s t) (nlink : BitVec 16) :
    Wp (setNlink ip nlink) Refused (fun _ u => Synced sb kept u ∧
      Store.Step sb.ninodes (.nlink ip nlink) s.file .none u.file) t := by
  have hset : Wp (Blocks.setNlink ip nlink) AnyError
      (fun _ u => u = (t.setDinode ip fun d => { d with nlink := nlink }).flush ip) t := by
    rw [Blocks.setNlink, setDinode, wp_bind, wp_modify]
    exact (wp_iupdate (s := t.setDinode ip fun d => { d with nlink := nlink }) (W := ∅) rfl id).weaken
      fun _ _ => trivial
  have hsync : Wp (Blocks.setNlink ip nlink) Refused (fun _ u => Synced sb kept u) t :=
    h.toSynced.setDinode h.valid h.live fun _ => ⟨rfl, rfl, rfl⟩
  apply (hsync.and hset).mono
  intro _ u hu
  obtain ⟨hsynced, hu⟩ := hu
  refine ⟨hsynced, ?_⟩
  have hv : ((t.setDinode ip fun d => { d with nlink := nlink }).inode ip).valid = true := by
    rw [inode_setDinode, ← h.valid]
  have hbread : u.bread = t.bread := by
    rw [hu, bread_flush]
    rfl
  have hcur : u.cur ip = { t.cur ip with nlink := nlink } := by
    rw [hu, cur_flush hv]
    exact cur_setDinode t _ h.valid
  have hself : u.file ip = some ⟨(t.cur ip).type, nlink, t.content ip⟩ := by
    rw [file_some (by rw [hcur]; exact h.live), hcur]
    congr 2
    rw [State.content, hcur]
    apply List.map_congr_left
    intro x _
    have haddr : u.addr = t.addr := by
      rw [hu, addr_flush hv]
      exact addr_setDinode h.valid fun _ => ⟨rfl, rfl⟩
    rw [byteAt_congr haddr hbread]
  have hother (i : Nat) (hi : i ≠ ip) : u.file i = s.file i := by
    rw [← h.file]
    apply file_of_bread
    · rw [hu, cur_flush hv]
      exact cur_setDinode_of_ne t _ hi
    · exact hbread
  rw [file_update hself hother]
  exact .nlink h.file_self

theorem Synced.file_none (h : Synced sb kept s) : s.file i = none ↔ (s.dinode i).type = 0 := by
  rw [State.file, h.cur]
  split
  · next h0 => exact iff_of_true rfl h0
  · next hne => exact iff_of_false (Option.some_ne_none _) hne

theorem wp_ialloc_store (h : Synced sb kept s) {type : BitVec 16} (htype : type ≠ 0) : Wp (ialloc type) Refused
    (fun i t => Synced sb kept t ∧ Store.Step sb.ninodes (.ialloc type) s.file (.inum i) t.file) s := by
  rw [ialloc, wp_bind, wp_get]
  cases hf : (List.range' 1 (s.sb.ninodes - 1)).find? fun inum => decide ((s.dinode inum).type = 0) with
  | none =>
    rw [List.find?_range'_eq_none] at hf
    refine wp_pure.2 ⟨h, .full fun j h₁ h₂ => ?_⟩
    have hj := hf j h₁ (by rw [h.sb]; omega)
    rw [ne_eq, h.file_none]
    simpa using hj
  | some inum =>
    obtain ⟨hfree, hmem, hleast⟩ := List.find?_range'_eq_some.1 hf
    rw [List.mem_range'_1] at hmem
    rw [decide_eq_true_eq] at hfree
    rw [wp_bind, wp_modify, wp_bind]
    apply wp_logWrite
    · exact fun _ => .inl rfl
    · intro _
      obtain ⟨u, hu⟩ : ∃ u, u = State.log { s with
          dinode := Function.update s.dinode inum { Dinode.empty with type := type } } (IBLOCK inum s.sb) := ⟨_, rfl⟩
      have hmark := (h.mark hfree type (IBLOCK inum s.sb)).iget inum
      rw [← hu] at hmark ⊢
      rw [iget, wp_bind, wp_modify, wp_pure] at hmark ⊢
      obtain ⟨v, hv⟩ : ∃ v, v = u.setInode inum (if 0 < (u.inode inum).ref then
        { u.inode inum with ref := (u.inode inum).ref + 1 }
        else { u.inode inum with ref := 1, valid := false }) := ⟨_, rfl⟩
      rw [← hv] at hmark ⊢
      have hdinode : v.dinode = Function.update s.dinode inum { Dinode.empty with type := type } := by
        rw [hv, hu]
        rfl
      have hbread : v.bread = s.bread := by
        have hub : u.bread = s.bread := by
          rw [hu, bread_log]
          rfl
        rw [hv, ← hub]
        rfl
      have hcur : v.cur inum = { Dinode.empty with type := type } := by
        rw [hmark.cur, hdinode, Function.update_self]
      have hself : v.file inum = some ⟨type, 0, []⟩ := by
        rw [file_some (by rw [hcur]; exact htype), State.content, hcur]
        rfl
      have hother (i : Nat) (hi : i ≠ inum) : v.file i = s.file i := by
        apply file_of_bread
        · rw [hmark.cur, h.cur, hdinode, Function.update_of_ne hi]
        · exact hbread
      rw [file_update hself hother]
      refine ⟨hmark, .ialloc hmem.1 ?_ (h.file_none.2 hfree) fun j h₁ h₂ => ?_⟩
      · rw [← h.sb]
        omega
      · have hj := hleast j h₁ h₂
        rw [ne_eq, h.file_none]
        simpa using hj

theorem wp_iput_store (h : Synced sb kept s) (ip : Nat) : Wp (iput ip) Refused
    (fun _ t => Synced sb kept t ∧ Store.Step sb.ninodes (.iput ip) s.file .none t.file) s := by
  have hfate : Wp (iput ip) AnyError (fun _ t => Steady s t ∨
      (s.inode ip).valid = true ∧ (s.cur ip).nlink = 0 ∧ t.bread = s.bread ∧ (t.dinode ip).type = 0 ∧
        ∀ i, i ≠ ip → t.dinode i = s.dinode i) s := by
    rw [iput, wp_bind, wp_get]
    apply Wp.ite
    · intro hc
      have hv := hc.2.1
      have hcur : (s.inode ip).dinode = s.cur ip := by rw [State.cur, if_pos hv]
      have htype : (s.cur ip).type ≠ 0 := by
        rw [h.cur]
        exact h.type ip hv
      rw [wp_bind]
      apply ((wp_itrunc h.toGood hv htype).weaken fun _ _ => trivial).mono
      intro _ t htr
      rw [wp_bind, setDinode, wp_modify, wp_bind]
      apply ((wp_iupdate (s := t.setDinode ip fun d => { d with type := 0 }) (W := ∅) rfl id).weaken
        fun _ _ => trivial).mono
      intro _ u hu
      rw [wp_bind, wp_modify, wp_modify]
      have hdinode : u.dinode = Function.update t.dinode ip { (t.inode ip).dinode with type := 0 } := by
        have hinode := inode_setDinode t ip fun d => { d with type := 0 }
        rw [hu]
        change Function.update t.dinode ip ((t.setDinode ip fun d => { d with type := 0 }).inode ip).dinode = _
        rw [hinode]
      have hbread : u.bread = t.bread := by
        rw [hu, bread_flush]
        rfl
      refine .inr ⟨hv, ?_, ?_, ?_, ?_⟩
      · rw [← hcur]
        exact hc.2.2
      · exact hbread.trans htr.bread
      · change (u.dinode ip).type = 0
        rw [hdinode, Function.update_self]
      · intro i hi
        change u.dinode i = s.dinode i
        rw [hdinode, Function.update_of_ne hi, htr.dinode, Function.update_of_ne hi]
    · exact fun _ => .inl ⟨rfl, rfl⟩
  apply ((h.iput ip).and hfate).mono
  intro _ t ht
  obtain ⟨hsynced, ht⟩ := ht
  refine ⟨hsynced, ?_⟩
  rcases ht with hsame | ⟨hv, hnlink, hbread, hzero, hothers⟩
  · rw [h.file_eq hsynced hsame]
    exact .iput
  · have hself : t.file ip = none := hsynced.file_none.2 hzero
    have hother (i : Nat) (hi : i ≠ ip) : t.file i = s.file i := by
      apply file_of_bread
      · rw [hsynced.cur, h.cur, hothers i hi]
      · exact hbread
    rw [file_update hself hother]
    apply Store.Step.free
    · apply file_some
      rw [h.cur]
      exact h.type ip hv
    · exact hnlink

/-- A state of the blocks that stands for a state of the files. -/
structure Stands (sb : Superblock) (kept : Nat → Prop) (s : State) : Prop extends Synced sb kept s where
  tidy : s.Tidy

/-- Every call does to the files what the store says. -/
theorem wp_call (h : Stands sb kept s) {op : Op} (hop : op.Proper) : Wp (call op) Refused
    (fun r t => Stands sb kept t ∧ Store.Step sb.ninodes op s.file r t.file) s := by
  have hstep : Wp (call op) Refused (fun r t => Synced sb kept t ∧ Store.Step sb.ninodes op s.file r t.file) s := by
    have hsteady {t : State} (ht : Synced sb kept t) (hsame : Steady s t) : t.file = s.file :=
      h.toSynced.file_eq ht hsame
    cases op with
    | writei ip src a off n =>
      apply (wp_ilock_locked h.toSynced).bind
      intro _ t ht
      exact (ht.writei hop).bind fun r u hu => wp_pure.2 hu
    | readi ip out dst off n =>
      apply (wp_ilock_locked h.toSynced).bind
      intro _ t ht
      exact (ht.readi hop).bind fun r u hu => wp_pure.2 hu
    | itrunc ip =>
      apply (wp_ilock_locked h.toSynced).bind
      intro _ t ht
      exact ht.itrunc.bind fun _ u hu => wp_pure.2 hu
    | ialloc type => exact (wp_ialloc_store h.toSynced hop).bind fun _ u hu => wp_pure.2 hu
    | iget inum =>
      have hget := h.toSynced.iget inum
      rw [call, Blocks.iget, wp_bind, wp_bind, wp_modify, wp_pure, wp_pure]
      rw [Blocks.iget, wp_bind, wp_modify, wp_pure] at hget
      refine ⟨hget, ?_⟩
      rw [hsteady hget ⟨rfl, rfl⟩]
      exact .iget
    | iput ip => exact (wp_iput_store h.toSynced ip).bind fun _ u hu => wp_pure.2 hu
    | nlink ip nlink =>
      apply (wp_ilock_locked h.toSynced).bind
      intro _ t ht
      exact (ht.setNlink nlink).bind fun _ u hu => wp_pure.2 hu
    | evict b =>
      have hevict : Synced sb kept { s with buf := Function.update s.buf b none } :=
        ⟨h.toGood.evict b, h.sb, h.dinode, h.type⟩
      have hsame : Function.update s.buf b none = s.buf := by
        rw [← h.tidy b]
        exact Function.update_eq_self ..
      rw [call, Blocks.evict, wp_bind, wp_modify, wp_pure]
      refine ⟨hevict, ?_⟩
      rw [hsteady hevict]
      · exact .evict
      · refine ⟨rfl, ?_⟩
        funext x
        change (Function.update s.buf b none x).getD _ = _
        rw [hsame]
        rfl
    | beginOp =>
      have hbegin : Synced sb kept { s with logged := [] } :=
        ⟨h.toGood.congr rfl rfl rfl (fun _ => .inr rfl) h.covers, h.sb, h.dinode, h.type⟩
      rw [call, Blocks.beginOp, wp_bind, wp_modify, wp_pure]
      refine ⟨hbegin, ?_⟩
      rw [hsteady hbegin ⟨rfl, rfl⟩]
      exact .beginOp
    | endOp =>
      have hend : Synced sb kept { s with logged := [], ended := s.ended ++ [s.logged] } :=
        ⟨h.toGood.congr rfl rfl rfl (fun _ => .inr rfl) h.covers, h.sb, h.dinode, h.type⟩
      rw [call, Blocks.endOp, wp_bind, wp_modify, wp_pure]
      refine ⟨hend, ?_⟩
      rw [hsteady hend ⟨rfl, rfl⟩]
      exact .endOp
  apply (hstep.and (maintains_call op hop s h.tidy)).mono
  intro r t ht
  exact ⟨⟨ht.1.1, ht.2⟩, ht.1.2⟩

/-- The blocks and the table of inodes are a store of files: every run of the calls, with what they return, is
a run of the store, and leaves alone the files that no call is for. -/
theorem store_refined (h : Sound s) (hq : Quiescent s) (htidy : s.Tidy) (ops : List Op) (hops : ∀ op ∈ ops, op.Proper) :
    Wp (runWith call ops) Refused (fun rs t => Sound t ∧ t.Tidy ∧
      Steps (Store.Step s.sb.ninodes) ops s.file rs t.file ∧
      ∀ i v, s.file i = some v → (∀ op ∈ ops, op.target ≠ some i) → t.file i = some v) s := by
  have hstart : Stands s.sb (fun b => b < s.sb.nmeta ∨ s.Leaked b) s := ⟨h.synced hq, htidy⟩
  apply (Wp.simulates State.file hstart ops fun op hop t ht => wp_call ht (hops op hop)).mono
  intro rs t ht
  obtain ⟨hstands, hsteps⟩ := ht
  refine ⟨hstands.toGood.sound fun b hb => hstands.metadata b hb, hstands.tidy, hsteps, fun i v hi htarget => ?_⟩
  exact hsteps.keeps (I := fun f => f i = some v) hi fun op hop f r g hf hstep => hstep.keeps hf (htarget op hop)

theorem store_refined_disk : ∃ rs t, runWith call [.beginOp, .writei 2 (.kernel fun _ => 7) 0 1 3,
      .readi 2 (fun _ _ => true) 0 0 9, .endOp] disk = .ok (rs, t) ∧
    Steps (Store.Step 200) [.beginOp, .writei 2 (.kernel fun _ => 7) 0 1 3, .readi 2 (fun _ _ => true) 0 0 9, .endOp]
      disk.file rs t.file := by
  have hrun : ∃ rs t, runWith call [.beginOp, .writei 2 (.kernel fun _ => 7) 0 1 3,
      .readi 2 (fun _ _ => true) 0 0 9, .endOp] disk = .ok (rs, t) := ⟨_, _, rfl⟩
  obtain ⟨rs, t, ht⟩ := hrun
  have hops : ∀ op ∈ [Op.beginOp, .writei 2 (.kernel fun _ => 7) 0 1 3, .readi 2 (fun _ _ => true) 0 0 9, .endOp],
      op.Proper := by
    simp [Op.Proper, Src.byte?]
  exact ⟨rs, t, ht, ((store_refined disk_sound disk_quiescent (fun _ => rfl) _ hops).of_eq_ok ht).2.2.1⟩

end PbsCow.Blocks

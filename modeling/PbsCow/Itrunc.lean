import PbsCow.WriteRead

namespace PbsCow.Blocks
set_option autoImplicit true

def TooBig (e : Stop) : Prop := e = .tooBigATransaction

variable {kept : Nat → Prop} {s t : State} {ip k : Nat} {done : Finset Nat}

theorem wp_bfree (hb : s.bitmap b = true) :
    Wp (bfree b) TooBig (fun _ t => t = (s.mark b false).log (BBLOCK b s.sb)) s := by
  rw [bfree, wp_bind, wp_get]
  apply Wp.ite_neg
  · rw [hb]
    decide
  · rw [wp_bind, wp_modify]
    apply wp_logWrite
    · exact fun _ => rfl
    · exact fun _ => rfl

/-- The slots of the inode in `done` have given their blocks back. -/
def without (ref : Nat × Nat → Nat) (ip : Nat) (done : Finset Nat) (a : Nat × Nat) : Nat :=
  if a.1 = ip ∧ a.2 ∈ done then 0 else ref a

theorem without_insert (ref : Nat × Nat → Nat) (ip k : Nat) (done : Finset Nat) :
    without ref ip (insert k done) = Function.update (without ref ip done) (ip, k) 0 := by
  funext a
  by_cases ha : a = (ip, k)
  · rw [ha, Function.update_self, without, if_pos ⟨rfl, Finset.mem_insert_self k done⟩]
  · rw [Function.update_of_ne ha, without, without]
    by_cases hip : a.1 = ip
    · have hk : a.2 ≠ k := fun hk => ha (Prod.ext hip hk)
      simp only [Finset.mem_insert, hk, false_or]
    · rw [if_neg fun hc => hip hc.1, if_neg fun hc => hip hc.1]

/-- The truncation of `ip` has come as far as `done`. The entries stay in the indirect block. -/
structure Freed (kept : Nat → Prop) (ip : Nat) (done : Finset Nat) (s t : State) : Prop where
  allots : Allots kept s.sb.size (without s.ref ip done) t.bitmap
  sb : t.sb = s.sb
  bread : t.bread = s.bread
  buf : ∀ b, t.buf b = none ∨ t.buf b = s.buf b
  dinode : t.dinode = s.dinode
  others : ∀ i, i ≠ ip → t.inode i = s.inode i
  ref : (t.inode ip).ref = (s.inode ip).ref
  valid : (t.inode ip).valid = (s.inode ip).valid
  type : (t.inode ip).dinode.type = (s.inode ip).dinode.type
  nlink : (t.inode ip).dinode.nlink = (s.inode ip).dinode.nlink
  addrs : ∀ k, k ≤ NDIRECT → (t.inode ip).dinode.addrs k = if k ∈ done then 0 else (s.inode ip).dinode.addrs k

namespace Freed

/-- A slot that has no block. -/
theorem skip (h : Freed kept ip done s t) (h0 : s.ref (ip, k) = 0)
    (ha : k ≤ NDIRECT → (s.inode ip).dinode.addrs k = 0) : Freed kept ip (insert k done) s t := by
  refine ⟨?_, h.sb, h.bread, h.buf, h.dinode, h.others, h.ref, h.valid, h.type, h.nlink, ?_⟩
  · rw [without_insert, Function.update_eq_self_iff.2]
    · exact h.allots
    · rw [without]
      split
      · rfl
      · exact h0.symm
  · intro j hj
    rw [h.addrs j hj]
    by_cases hjk : j = k
    · subst hjk
      rw [ha hj, if_pos (Finset.mem_insert_self j done), ite_self]
    · simp only [Finset.mem_insert, hjk, false_or]

theorem marked (h : Freed kept ip done s t) (hk : k ∉ done) (h0 : s.ref (ip, k) ≠ 0) :
    t.bitmap (s.ref (ip, k)) = true := by
  have hsame : without s.ref ip done (ip, k) = s.ref (ip, k) := by rw [without, if_neg fun hc => hk hc.2]
  have hne : without s.ref ip done (ip, k) ≠ 0 := by rwa [hsame]
  have hmark := h.allots.marked hne
  rwa [hsame] at hmark

/-- The block of an entry of the indirect block is given back. -/
theorem giveEntry (h : Freed kept ip done s t) (hk : k ∉ done) (h0 : s.ref (ip, k) ≠ 0) (hentry : NDIRECT < k) :
    Freed kept ip (insert k done) s ((t.mark (s.ref (ip, k)) false).log b) := by
  have hsame : without s.ref ip done (ip, k) = s.ref (ip, k) := by rw [without, if_neg fun hc => hk hc.2]
  have hne : without s.ref ip done (ip, k) ≠ 0 := by rwa [hsame]
  have hgive := h.allots.give hne
  rw [hsame, ← without_insert] at hgive
  refine ⟨hgive, h.sb, ?_, ?_, h.dinode, h.others, h.ref, h.valid, h.type, h.nlink, ?_⟩
  · rw [bread_log]
    exact h.bread
  · intro x
    rcases buf_log (t.mark (s.ref (ip, k)) false) b x with hx | hx
    · exact .inl hx
    · rw [hx]
      exact h.buf x
  · intro j hj
    have hjk : j ≠ k := by omega
    have haddrs := h.addrs j hj
    simp only [Finset.mem_insert, hjk, false_or]
    exact haddrs

/-- The block of an address of the inode is given back, and the address is cleared. -/
theorem giveAddr (h : Freed kept ip done s t) (hk : k ∉ done) (h0 : s.ref (ip, k) ≠ 0) :
    Freed kept ip (insert k done) s
      (((t.mark (s.ref (ip, k)) false).log b).setDinode ip fun d => d.setAddr k 0) := by
  have hsame : without s.ref ip done (ip, k) = s.ref (ip, k) := by rw [without, if_neg fun hc => hk hc.2]
  have hne : without s.ref ip done (ip, k) ≠ 0 := by rwa [hsame]
  have hgive := h.allots.give hne
  rw [hsame, ← without_insert] at hgive
  have hself : (((t.mark (s.ref (ip, k)) false).log b).setDinode ip fun d => d.setAddr k 0).inode ip =
      { t.inode ip with dinode := (t.inode ip).dinode.setAddr k 0 } := inode_setDinode ..
  refine ⟨hgive, h.sb, ?_, ?_, h.dinode, ?_, ?_, ?_, ?_, ?_, ?_⟩
  · have hread := bread_log (t.mark (s.ref (ip, k)) false) b
    exact Eq.trans hread h.bread
  · intro x
    rcases buf_log (t.mark (s.ref (ip, k)) false) b x with hx | hx
    · exact .inl hx
    · exact (h.buf x).imp hx.trans hx.trans
  · intro i hi
    rw [← h.others i hi]
    exact Function.update_of_ne hi ..
  · rw [hself, ← h.ref]
  · rw [hself, ← h.valid]
  · rw [hself, ← h.type]
    rfl
  · rw [hself, ← h.nlink]
    rfl
  · intro j hj
    rw [hself]
    by_cases hjk : j = k
    · rw [hjk, if_pos (Finset.mem_insert_self k done)]
      exact Function.update_self ..
    · have haddrs := h.addrs j hj
      simp only [Finset.mem_insert, hjk, false_or]
      rw [← haddrs]
      exact Function.update_of_ne hjk ..

end Freed

section truncating

variable (hv : (s.inode ip).valid = true) (ht : (s.cur ip).type ≠ 0)
include hv ht

theorem ref_direct (hk : k ≤ NDIRECT) : s.ref (ip, k) = (s.inode ip).dinode.addrs k := by
  rw [State.ref, State.addr, if_neg ht, if_pos hk, State.cur, if_pos hv]

theorem wp_freeDirect (l : List Nat) (hl : ∀ k ∈ l, k ≤ NDIRECT) (hn : l.Nodup) (hd : ∀ k ∈ l, k ∉ done)
    (h : Freed kept ip done s t) :
    Wp (freeDirect ip l) TooBig (fun _ u => Freed kept ip (done ∪ l.toFinset) s u) t := by
  induction l generalizing done t with
  | nil =>
    rw [List.toFinset_nil, Finset.union_empty]
    exact wp_pure.2 h
  | cons k l ih =>
    have hk := hl k List.mem_cons_self
    have hkd := hd k List.mem_cons_self
    obtain ⟨hkl, hn⟩ := List.nodup_cons.1 hn
    have haddr : (t.inode ip).dinode.addrs k = s.ref (ip, k) := by
      rw [h.addrs k hk, if_neg hkd, ref_direct hv ht hk]
    have hrest {u : State} (hu : Freed kept ip (insert k done) s u) :
        Wp (freeDirect ip l) TooBig (fun _ u => Freed kept ip (done ∪ (k :: l).toFinset) s u) u := by
      have heq : done ∪ (k :: l).toFinset = insert k done ∪ l.toFinset := by
        rw [List.toFinset_cons, Finset.union_insert, Finset.insert_union]
      rw [heq]
      apply ih (fun j hj => hl j (List.mem_cons_of_mem k hj)) hn _ hu
      intro j hj hmem
      rcases Finset.mem_insert.1 hmem with rfl | hmem
      · exact hkl hj
      · exact hd j (List.mem_cons_of_mem k hj) hmem
    rw [freeDirect, wp_bind, wp_get]
    dsimp only
    rw [haddr]
    apply Wp.ite
    · intro h0
      rw [wp_bind]
      apply (wp_bfree (h.marked hkd h0)).mono
      intro _ u hu
      subst hu
      rw [wp_bind, setAddr, setDinode, wp_modify]
      exact hrest (h.giveAddr hkd h0)
    · intro h0
      rw [not_not] at h0
      exact hrest (h.skip h0 fun _ => by rw [← ref_direct hv ht hk, h0])

omit hv in
theorem ref_entry (hne : s.ref (ip, NDIRECT) ≠ 0) (hj : j < NINDIRECT) :
    s.ref (ip, NDIRECT + 1 + j) = (s.bread (s.ref (ip, NDIRECT))).uint j := by
  have hind : s.ref (ip, NDIRECT) = (s.cur ip).addrs NDIRECT := by
    rw [State.ref, State.addr, if_neg ht, if_pos (Nat.le_refl _)]
  rw [State.ref, State.addr, if_neg ht, if_neg (by omega), ← hind, if_neg (by omega), Nat.add_sub_cancel_left]

omit hv in
theorem wp_freeEntries (hne : s.ref (ip, NDIRECT) ≠ 0) (l : List Nat) (hl : ∀ j ∈ l, j < NINDIRECT) (hn : l.Nodup)
    (hd : ∀ j ∈ l, NDIRECT + 1 + j ∉ done) (h : Freed kept ip done s t) :
    Wp (freeEntries (s.bread (s.ref (ip, NDIRECT))) l) TooBig
      (fun _ u => Freed kept ip (done ∪ l.toFinset.image (NDIRECT + 1 + ·)) s u) t := by
  induction l generalizing done t with
  | nil =>
    rw [List.toFinset_nil, Finset.image_empty, Finset.union_empty]
    exact wp_pure.2 h
  | cons j l ih =>
    have hj := hl j List.mem_cons_self
    have hjd := hd j List.mem_cons_self
    obtain ⟨hjl, hn⟩ := List.nodup_cons.1 hn
    have hrest {u : State} (hu : Freed kept ip (insert (NDIRECT + 1 + j) done) s u) :
        Wp (freeEntries (s.bread (s.ref (ip, NDIRECT))) l) TooBig
          (fun _ u => Freed kept ip (done ∪ (j :: l).toFinset.image (NDIRECT + 1 + ·)) s u) u := by
      have heq : done ∪ (j :: l).toFinset.image (NDIRECT + 1 + ·) =
          insert (NDIRECT + 1 + j) done ∪ l.toFinset.image (NDIRECT + 1 + ·) := by
        rw [List.toFinset_cons, Finset.image_insert, Finset.union_insert, Finset.insert_union]
      rw [heq]
      apply ih (fun i hi => hl i (List.mem_cons_of_mem j hi)) hn _ hu
      intro i hi hmem
      rcases Finset.mem_insert.1 hmem with he | hmem
      · obtain rfl : i = j := by omega
        exact hjl hi
      · exact hd i (List.mem_cons_of_mem j hi) hmem
    rw [freeEntries, ← ref_entry ht hne hj]
    apply Wp.ite
    · intro h0
      rw [wp_bind]
      apply (wp_bfree (h.marked hjd h0)).mono
      intro _ u hu
      subst hu
      exact hrest (h.giveEntry hjd h0 (by omega))
    · intro h0
      rw [not_not] at h0
      exact hrest (h.skip h0 fun hle => by omega)

theorem wp_freeIndirect (h : Freed kept ip (List.range NDIRECT).toFinset s t) :
    Wp (freeIndirect ip) TooBig (fun _ u => ∃ done, Freed kept ip done s u ∧ ∀ k, k ∉ done → s.ref (ip, k) = 0) t := by
  have hmem (k : Nat) : k ∈ (List.range NDIRECT).toFinset ↔ k < NDIRECT := by rw [List.mem_toFinset, List.mem_range]
  have hnd : NDIRECT ∉ (List.range NDIRECT).toFinset := fun hc => Nat.lt_irrefl _ ((hmem _).1 hc)
  have haddr : (t.inode ip).dinode.addrs NDIRECT = s.ref (ip, NDIRECT) := by
    rw [h.addrs NDIRECT (Nat.le_refl _), if_neg hnd, ref_direct hv ht (Nat.le_refl _)]
  rw [freeIndirect, wp_bind, wp_get]
  dsimp only
  rw [haddr]
  apply Wp.ite
  · intro hne
    rw [h.bread, wp_bind]
    apply (wp_freeEntries ht hne (List.range NINDIRECT) (fun j hj => List.mem_range.1 hj) List.nodup_range _ h).mono
    · intro _ u hu
      have hndu : NDIRECT ∉ (List.range NDIRECT).toFinset ∪ (List.range NINDIRECT).toFinset.image (NDIRECT + 1 + ·) := by
        intro hc
        rcases Finset.mem_union.1 hc with hc | hc
        · exact hnd hc
        · obtain ⟨j, _, hj⟩ := Finset.mem_image.1 hc
          omega
      rw [wp_bind]
      apply (wp_bfree (hu.marked hndu hne)).mono
      intro _ v hveq
      subst hveq
      rw [setAddr, setDinode, wp_modify]
      refine ⟨_, hu.giveAddr hndu hne, fun k hk => ?_⟩
      -- past the last entry there is no slot
      have hlast : NDIRECT + NINDIRECT < k := by
        by_contra hle
        apply hk
        rw [Finset.mem_insert, Finset.mem_union, hmem, Finset.mem_image]
        rcases Nat.lt_trichotomy k NDIRECT with hlt | heq | hgt
        · exact .inr (.inl hlt)
        · exact .inl heq
        · refine .inr (.inr ⟨k - (NDIRECT + 1), ?_, by omega⟩)
          rw [List.mem_toFinset, List.mem_range]
          omega
      rw [State.ref, State.addr, if_neg ht, if_neg (by omega), if_pos (.inr hlast)]
    · intro j _ hj
      have hlt := (hmem _).1 hj
      omega
  · intro h0
    rw [not_not] at h0
    refine wp_pure.2 ⟨_, h, fun k hk => ?_⟩
    have hge : ¬k < NDIRECT := fun hlt => hk ((hmem k).2 hlt)
    by_cases hk : k = NDIRECT
    · rw [hk, h0]
    · have hind : (s.cur ip).addrs NDIRECT = 0 := by
        rw [State.ref, State.addr, if_neg ht, if_pos (Nat.le_refl _)] at h0
        exact h0
      rw [State.ref, State.addr, if_neg ht, if_neg (by omega), if_pos (.inl hind)]

end truncating

/-- The inode has no blocks and is empty, on the disk too. -/
structure Truncated (kept : Nat → Prop) (ip : Nat) (s t : State) : Prop where
  good : Good kept t
  sb : t.sb = s.sb
  bread : t.bread = s.bread
  others : ∀ i, i ≠ ip → t.inode i = s.inode i
  ref : (t.inode ip).ref = (s.inode ip).ref
  valid : (t.inode ip).valid = (s.inode ip).valid
  dinode : t.dinode = Function.update s.dinode ip (t.cur ip)
  type : (t.cur ip).type = (s.cur ip).type
  nlink : (t.cur ip).nlink = (s.cur ip).nlink
  size : (t.cur ip).size = 0
  addr : ∀ i k, t.addr i k = if i = ip then 0 else s.addr i k

theorem wp_itrunc (hg : Good kept s) (hv : (s.inode ip).valid = true) (ht : (s.cur ip).type ≠ 0) :
    Wp (itrunc ip) TooBig (fun _ t => Truncated kept ip s t) s := by
  have hstart : Freed kept ip ∅ s s := by
    refine ⟨?_, rfl, rfl, fun _ => .inr rfl, rfl, fun _ _ => rfl, rfl, rfl, rfl, rfl, fun k _ => rfl⟩
    have hsame : without s.ref ip ∅ = s.ref := by
      funext a
      rw [without, if_neg fun hc => Finset.notMem_empty _ hc.2]
    rw [hsame]
    exact hg.allots
  rw [itrunc, wp_bind]
  apply (wp_freeDirect hv ht (List.range NDIRECT) (fun k hk => Nat.le_of_lt (List.mem_range.1 hk)) List.nodup_range
    (fun k _ => Finset.notMem_empty k) hstart).mono
  intro _ t hfreed
  rw [Finset.empty_union] at hfreed
  rw [wp_bind]
  apply (wp_freeIndirect hv ht hfreed).mono
  intro _ u hu
  obtain ⟨done, hu, hall⟩ := hu
  rw [wp_bind, setDinode, wp_modify]
  obtain ⟨v, hveq⟩ : ∃ v, v = u.setDinode ip fun d => { d with size := 0 } := ⟨_, rfl⟩
  rw [← hveq]
  have hvu : (u.inode ip).valid = true := by rw [hu.valid, hv]
  have hself : v.inode ip = { u.inode ip with dinode := { (u.inode ip).dinode with size := 0 } } := by
    rw [hveq]
    exact inode_setDinode ..
  have hvv : (v.inode ip).valid = true := by rw [hself, ← hvu]
  have hother (i : Nat) (hi : i ≠ ip) : v.inode i = s.inode i := by
    rw [hveq, ← hu.others i hi]
    exact Function.update_of_ne hi ..
  have hcuro (i : Nat) (hi : i ≠ ip) : v.cur i = s.cur i := by
    rw [State.cur, State.cur, hother i hi, hveq]
    exact congrArg (fun f => if (s.inode i).valid = true then (s.inode i).dinode else f i) hu.dinode
  have hcurs : v.cur ip = { (u.inode ip).dinode with size := 0 } := by rw [State.cur, if_pos hvv, hself]
  have hbread : v.bread = s.bread := by
    rw [hveq, ← hu.bread]
    rfl
  have haddr (i k : Nat) : v.addr i k = if i = ip then 0 else s.addr i k := by
    by_cases hi : i = ip
    · have hzero (k : Nat) (hk : k ≤ NDIRECT) : (u.inode ip).dinode.addrs k = 0 := by
        rw [hu.addrs k hk]
        split
        · rfl
        · next hd => rw [← ref_direct hv ht hk, hall k hd]
      subst hi
      rw [if_pos rfl, State.addr, hcurs]
      split
      · rfl
      · split
        · next hk => exact hzero k hk
        · rw [if_pos (.inl (hzero NDIRECT (Nat.le_refl _)))]
    · rw [if_neg hi]
      apply addr_congr (hcuro i hi)
      rw [hbread]
      exact fun _ => rfl
  have hgv : Good kept v := by
    constructor
    · have href : v.ref = without s.ref ip done := by
        funext a
        rw [State.ref, haddr, without]
        by_cases hip : a.1 = ip
        · by_cases hd : a.2 ∈ done
          · rw [if_pos hip, if_pos ⟨hip, hd⟩]
          · have h0 := hall a.2 hd
            rw [← hip] at h0
            rw [if_pos hip, if_neg fun hc => hd hc.2, h0]
        · rw [if_neg hip, if_neg fun hc => hip hc.1]
          rfl
      rw [href, hveq]
      have hsb : (u.setDinode ip fun d => { d with size := 0 }).sb = s.sb := hu.sb
      rw [hsb]
      exact hu.allots
    · have hsb : v.sb = s.sb := by rw [hveq, ← hu.sb]; rfl
      rw [hsb]
      exact hg.metadata
    · have hsb : v.sb = s.sb := by rw [hveq, ← hu.sb]; rfl
      rw [hsb]
      exact hg.size_lt
    · intro i bn htype hbn
      by_cases hi : i = ip
      · subst hi
        rw [hcurs] at hbn
        exact absurd hbn (Nat.not_lt_zero _)
      · rw [hcuro i hi] at htype hbn
        rw [haddr, if_neg hi]
        exact hg.covers i bn htype hbn
    · intro i hi
      rw [haddr] at hi ⊢
      split at hi
      · exact absurd rfl hi
      · next hne =>
        rw [if_neg hne]
        have hbuf : v.buf (s.addr i NDIRECT) = u.buf (s.addr i NDIRECT) := by rw [hveq]; rfl
        rcases hu.buf (s.addr i NDIRECT) with hb | hb
        · rw [hbuf, hb]
        · rw [hbuf, hb, hg.clean i hi]
  apply ((wp_iupdate (s := v) (W := ∅) rfl id).weaken fun _ he => he.1).mono
  intro _ w hw
  have hcurw : w.cur = v.cur := by rw [hw, cur_flush hvv]
  have hdin : v.dinode = s.dinode := by
    rw [hveq, ← hu.dinode]
    rfl
  refine ⟨?_, ?_, ?_, ?_, ?_, ?_, ?_, ?_, ?_, ?_, ?_⟩
  · rw [hw]
    exact hgv.flush hvv
  · rw [hw, hveq, ← hu.sb]
    rfl
  · rw [hw, bread_flush, hbread]
  · intro i hi
    rw [hw, ← hother i hi]
    rfl
  · have hsame : (w.inode ip).ref = (v.inode ip).ref := by rw [hw]; rfl
    rw [hsame, hself, ← hu.ref]
  · have hsame : (w.inode ip).valid = (v.inode ip).valid := by rw [hw]; rfl
    rw [hsame, hself, ← hu.valid]
  · rw [hcurw, hcurs, ← hdin, hw]
    have hd : (v.flush ip).dinode = Function.update v.dinode ip (v.inode ip).dinode := rfl
    rw [hd, hself]
  · rw [hcurw, hcurs, State.cur, if_pos hv, ← hu.type]
  · rw [hcurw, hcurs, State.cur, if_pos hv, ← hu.nlink]
  · rw [hcurw, hcurs]
  · intro i k
    rw [hw, addr_flush hvv, haddr]

end PbsCow.Blocks

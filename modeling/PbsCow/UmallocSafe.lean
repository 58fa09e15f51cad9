import PbsCow.Umalloc

namespace PbsCow.Umalloc
set_option autoImplicit true

section

variable {s : Heap}

theorem wp_joinNext {q : Nat} (hbrk : s.brk ≤ PHYSTOP - KERNBASE) (hb : b + 16 ≤ s.brk) (hq : q + 16 ≤ s.brk)
    (hlt : s.size b + s.size q < 2 ^ 32) :
    Wp (joinNext b q) NoError (fun _ t => t = { s with
      ptr := Function.update s.ptr b (if after s.size b = q then s.ptr q else q),
      size := if after s.size b = q then Function.update s.size b (s.size b + s.size q) else s.size }) s := by
  rw [joinNext, wp_bind]
  apply wp_getSize hbrk hb
  refine .ite (fun (hadj : after s.size b = q) => ?_) fun (hadj : ¬ after s.size b = q) => ?_
  · rw [if_pos hadj, if_pos hadj]
    simp only [wp_bind]
    apply wp_getSize hbrk hb
    apply wp_getSize hbrk hq
    apply wp_setSize hbrk hb hlt
    exact wp_getPtr hbrk hq (wp_setPtr hbrk hb rfl)
  · rw [if_neg hadj, if_neg hadj]
    exact wp_setPtr hbrk hb rfl

theorem wp_joinPrev (hbrk : s.brk ≤ PHYSTOP - KERNBASE) (hp : p + 16 ≤ s.brk) (hb : b + 16 ≤ s.brk)
    (hlt : s.size p + s.size b < 2 ^ 32) :
    Wp (joinPrev p b) NoError (fun _ t => t = { s with
      ptr := Function.update s.ptr p (if after s.size p = b then s.ptr b else b),
      size := if after s.size p = b then Function.update s.size p (s.size p + s.size b) else s.size }) s := by
  rw [joinPrev, wp_bind]
  apply wp_getSize hbrk hp
  refine .ite (fun (hadj : after s.size p = b) => ?_) fun (hadj : ¬ after s.size p = b) => ?_
  · rw [if_pos hadj, if_pos hadj]
    simp only [wp_bind]
    apply wp_getSize hbrk hp
    apply wp_getSize hbrk hb
    apply wp_setSize hbrk hp hlt
    exact wp_getPtr hbrk hb (wp_setPtr hbrk hp rfl)
  · rw [if_neg hadj, if_neg hadj]
    exact wp_setPtr hbrk hp rfl

end

/-- A number of turns that no loop of the allocator needs. -/
def turns : Nat := 2 ^ 30

theorem Sound.wp_free (h : Sound L s F) (hfuel : turns ≤ fuel) (hin : InHeap L s.brk s.size b)
    (hap : ∀ f, f ∈ F → Apart s.size f b) :
    Wp (free fuel (b + 16)) NoError (fun _ t => ∃ F', Freed L s.brk s.size F t.freep b t.ptr t.size F' ∧
      t.brk = s.brk) s := by
  obtain ⟨f, hf, hbt⟩ := h.ring.ring.exists_between h.ring.base (h.ring.notMem hin hap)
  obtain ⟨k, hk, hiter⟩ := h.ring.ring.reach h.freep hf
  have hcard := h.card_le
  have hturns : turns = 2 ^ 30 := rfl
  have hbhdr : b + 16 ≤ s.brk := by
    have hpos := hin.pos
    have hle := hin.brk
    rw [after] at hle
    omega
  have hbsize := h.size_le hin.brk
  rw [free, wp_bind, wp_get, Nat.add_sub_cancel]
  apply (h.wp_freeLoop hbt h.freep hiter (by omega)).bind
  rintro p s' ⟨hp, hbt, hs'⟩
  obtain rfl := hs'.symm
  have hq := (h.ring.ring p hp).1
  have hpsize := h.size_le (h.ring.mem_le hp h.start)
  have hqsize := h.size_le (h.ring.mem_le hq h.start)
  have hpb : p ≠ b := fun he => h.ring.notMem hin hap (he ▸ hp)
  rw [wp_bind]
  apply wp_getPtr h.brk (h.header hp)
  apply (wp_joinNext h.brk hbhdr (h.header hq) (by omega)).bind
  intro _ t ht
  have hbrk : t.brk = s.brk := by rw [ht]
  have hbt₁ : t.size b ≤ 2 ^ 24 := by
    rw [ht]
    dsimp only
    split
    · rw [Function.update_self]
      omega
    · omega
  have hpt : t.size p = s.size p := by
    rw [ht]
    dsimp only
    split
    · rw [Function.update_of_ne hpb]
    · rfl
  apply (wp_joinPrev (s := t) (by rw [hbrk]; exact h.brk) (by rw [hbrk]; exact h.header hp)
    (by rw [hbrk]; exact hbhdr) (by omega)).bind
  rintro _ u hu
  obtain ⟨F', hfreed⟩ := h.ring.free hp hbt hin hap rfl rfl
  rw [wp_modify, hu]
  refine ⟨F', ?_, hbrk⟩
  have hptr : t.ptr b = if after s.size b = s.ptr p then s.ptr (s.ptr p) else s.ptr p := by
    rw [ht]
    exact Function.update_self ..
  rw [ht] at hptr ⊢
  rw [hptr]
  exact hfreed

/-- A block of `n` units has been taken from the free list. -/
def Served (L : Layout) (s : Heap) (F : Finset Nat) (n a : Nat) (t : Heap) : Prop :=
  ∃ b F', a = b + 16 ∧ Taken L s.brk s.size F t.freep b n t.ptr t.size F' ∧ t.brk = s.brk

theorem Sound.wp_takeBlock (h : Sound L s F) (hp : prevp ∈ F) (hn : 0 < n) (hfit : n ≤ s.size (s.ptr prevp)) :
    Wp (takeBlock n prevp (s.ptr prevp)) NoError (Served L s F n) s := by
  have hf := (h.ring.ring prevp hp).1
  have hbase : s.ptr prevp ≠ L.base := by
    intro he
    rw [he, h.ring.flat] at hfit
    omega
  have hsize := h.size_le (h.ring.mem_le hf h.start)
  have hin := h.ring.inside _ hf hbase
  rw [takeBlock, wp_bind]
  apply wp_getSize h.brk (h.header hf)
  refine .ite (fun heq => ?_) fun hne => ?_
  · simp only [wp_bind]
    apply wp_getPtr h.brk (h.header hf)
    apply wp_setPtr h.brk (h.header hp)
    rw [wp_modify, wp_pure]
    refine ⟨s.ptr prevp, F.erase (s.ptr prevp), rfl, ?_, rfl⟩
    rw [← heq]
    exact h.ring.take hp hbase
  · simp only [wp_bind]
    apply wp_setSize h.brk (h.header hf) (by omega)
    refine wp_getSize h.brk (h.header hf) ?_
    have hself : Function.update s.size (s.ptr prevp) (s.size (s.ptr prevp) - n) (s.ptr prevp) =
        s.size (s.ptr prevp) - n := Function.update_self ..
    dsimp only
    rw [hself]
    have hbrk := hin.brk
    rw [after] at hbrk
    refine wp_setSize h.brk (by dsimp only; omega) (by omega) ?_
    rw [wp_modify, wp_pure]
    exact ⟨_, F, rfl, h.ring.split hp hf hn (by omega) rfl, rfl⟩

/-- The list and the heap have grown, if anything. -/
structure Grown (L : Layout) (s : Heap) (F : Finset Nat) (t : Heap) (F' : Finset Nat) : Prop where
  sound : Sound L t F'
  brk : s.brk ≤ t.brk
  clear : ∀ l, Clear s.size F l → after s.size l ≤ s.brk → Clear t.size F' l ∧ t.size l = s.size l

theorem Ring.grow (h : Ring L brk ptr size F) (hle : brk ≤ brk') : Ring L brk' ptr size F := by
  refine ⟨⟨h.base, h.ring, h.flat, fun f hf hne => ?_, h.apart⟩, h.loose⟩
  have hin := h.inside f hf hne
  exact ⟨hin.start, hin.pos, hin.brk.trans hle⟩

/-- The size in a place that is no free block does not matter to the list. -/
theorem Ring.update_size (h : Ring L brk ptr size F) (hb : b ∉ F) : Ring L brk ptr (Function.update size b n) F := by
  have hne {f : Nat} (hf : f ∈ F) : f ≠ b := fun he => hb (he ▸ hf)
  refine ⟨⟨h.base, h.ring, ?_, fun f hf hfb => ?_, fun f g hf hg hlt => ?_⟩, fun f hf => ?_⟩
  · rw [Function.update_of_ne (hne h.base), h.flat]
  · exact (h.inside f hf hfb).update_ne (hne hf)
  · rw [after_update_ne (hne hf)]
    exact h.apart f g hf hg hlt
  · rw [Loose, after_update_ne (hne hf)]
    exact h.loose f hf

/-- More memory comes as a block at the old break, which `free` puts into the list. -/
theorem Sound.wp_morecore (h : Sound L s F) (hfuel : turns ≤ fuel) (hnu : n * 16 < 0x80000000) (room : Bool) :
    Wp (morecore fuel room n) NoError (fun o t => match o with
      | none => t = s
      | some p => p = t.freep ∧ ∃ F', Grown L s F t F' ∧ ∃ f, f ∈ F' ∧ n ≤ t.size f) s := by
  rw [morecore]
  generalize hnu' : (if n < 4096 then 4096 else n) = nu
  have hmem : PHYSTOP - KERNBASE = 2 ^ 27 := rfl
  have hlow : 4096 ≤ nu ∧ n ≤ nu ∧ nu * 16 < 0x80000000 := by
    rw [← hnu']
    split <;> omega
  have hbrk := h.brk
  rw [wp_bind, sbrk, wp_bind, wp_get]
  rw [toInt_of_lt hlow.2.2]
  by_cases hroom : room ∧ ((s.brk : Int) + (nu * 16 : Nat)) ≤ (PHYSTOP - KERNBASE : Nat)
  · have hle : s.brk + nu * 16 ≤ PHYSTOP - KERNBASE := by omega
    have hgrow : growproc room s.brk (nu * 16 : Nat) = some (s.brk + nu * 16) := by
      unfold growproc
      rw [if_pos (by omega), if_pos hroom, ← Int.natCast_add, Int.toNat_natCast]
    dsimp only
    rw [hgrow]
    simp only [wp_bind, wp_modify, wp_pure]
    refine wp_setSize hle (by dsimp only; omega) (by omega) ?_
    have hnot : s.brk ∉ F := fun hmem => by
      have hhdr := h.header hmem
      omega
    have hne {f : Nat} (hf : f ∈ F) : f ≠ s.brk := fun he => hnot (he ▸ hf)
    have hsound : Sound L { s with size := Function.update s.size s.brk nu, brk := s.brk + nu * 16 } F :=
      ⟨h.start.trans (Nat.le_add_right _ _), hle,
        (h.ring.grow (Nat.le_add_right _ _)).update_size hnot, h.freep⟩
    have hin : InHeap L (s.brk + nu * 16) (Function.update s.size s.brk nu) s.brk := by
      refine ⟨h.start, ?_, ?_⟩
      · rw [Function.update_self]
        omega
      · rw [after_update_self]
        omega
    have hap : ∀ f, f ∈ F → Apart (Function.update s.size s.brk nu) f s.brk := by
      intro f hf
      rw [Apart, after_update_ne (hne hf)]
      exact .inl (h.ring.mem_le hf h.start)
    apply (hsound.wp_free hfuel hin hap).mono
    rintro _ t ⟨F', hfreed, hbrk'⟩
    rw [wp_get]
    dsimp only at hbrk' hfreed
    refine ⟨rfl, F', ⟨⟨?_, ?_, ?_, hfreed.mem⟩, ?_, fun l hl hlb => ?_⟩, ?_⟩
    · rw [hbrk']
      exact h.start.trans (Nat.le_add_right _ _)
    · rw [hbrk']
      exact hle
    · rw [hbrk']
      exact hfreed.ring
    · rw [hbrk']
      exact Nat.le_add_right _ _
    · have hlne : l ≠ s.brk := by
        have hpos := hl.pos
        rw [after] at hlb
        omega
      have hlsize : Function.update s.size s.brk nu l = s.size l := Function.update_of_ne hlne ..
      rw [← hlsize]
      apply hfreed.clear l
      refine ⟨by rw [hlsize]; exact hl.pos, ?_, fun f hf => ?_⟩
      · rw [Finset.mem_insert]
        exact not_or.mpr ⟨hlne, hl.notMem⟩
      · rcases Finset.mem_insert.mp hf with rfl | hf
        · rw [Apart, after_update_ne hlne]
          exact .inr hlb
        · exact (hl.apart f hf).update (hne hf) hlne
    · obtain ⟨f, hf, hfit⟩ := hfreed.fits
      rw [Function.update_self] at hfit
      exact ⟨f, hf, hlow.2.1.trans hfit⟩
  · have hfull : growproc room s.brk (nu * 16 : Nat) = none := by
      unfold growproc
      rw [if_pos (by omega), if_neg hroom]
    dsimp only
    rw [hfull]
    rfl

end PbsCow.Umalloc

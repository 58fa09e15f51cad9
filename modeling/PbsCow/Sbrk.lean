import PbsCow.AddressSpace

namespace PbsCow
set_option autoImplicit true

/-- What `growproc(n)` promises if it returns `ret`: it has failed and changed nothing, or the size is
exact, exactly the pages below it are mapped, no byte below it has changed and new pages are zero. -/
def Sys.Sbrk (t t' : Sys) (p : Slot) (n ret : Int) : Prop :=
  ret = -1 ∧ (t'.proc p).sz = (t.proc p).sz ∧ t'.pages p = t.pages p ∧
      (∀ v, v < MAXV → t'.pteAt (t'.proc p).pagetable v = t.pteAt (t.proc p).pagetable v) ∨
    ret = 0 ∧ ((t'.proc p).sz : Int) = (t.proc p).sz + n ∧
      (∀ v, (t'.pages p v).isSome ↔ v * PGSIZE < PGROUNDUP (t'.proc p).sz) ∧
      (∀ v, v * PGSIZE < min (t.proc p).sz (t'.proc p).sz → t'.pages p v = t.pages p v) ∧
      ∀ v u, t.pages p v = none → t'.pages p v = some u → u.data = fun _ => 0

/-- Exactly the pages below the size of a process are mapped. -/
theorem Inv.pages_isSome {t : Sys} {p : Slot} (h : Inv L t) (hp : (t.proc p).state ≠ .UNUSED) (v : Nat) :
    (t.pages p v).isSome ↔ v * PGSIZE < PGROUNDUP (t.proc p).sz := by
  have hs := h.wellShaped hp
  have hle := hs.le
  have htop : v * PGSIZE < TRAPFRAME ↔ v < TFV := by
    rw [TRAPFRAME_eq]
    exact Nat.mul_lt_mul_right (by decide)
  rw [Sys.pages, Mem.pages]
  by_cases hv : v < TFV
  · have hleaf := hs.leaf v (Nat.lt_trans hv (by decide))
    have hlow : v * PGSIZE < TRAPFRAME := htop.2 hv
    have hlt : TRAPFRAME < TRAMPOLINE := by decide
    rw [Sys.pteAt] at hleaf
    by_cases hf : flag (t.mem.pte (t.proc p).pagetable (v * PGSIZE)) PTE_V = true
    · rw [if_pos ⟨hv, hf⟩]
      rcases hleaf.1 hf with h | h | h
      · simpa using h
      · omega
      · omega
    · rw [if_neg fun h => hf h.2]
      have hno : ¬ v * PGSIZE < PGROUNDUP (t.proc p).sz := fun h => hf (hleaf.2 (.inl h))
      simpa using hno
  · rw [if_neg fun h => hv h.1]
    have hno : ¬ v * PGSIZE < PGROUNDUP (t.proc p).sz := fun h => hv (htop.1 (Nat.lt_of_lt_of_le h hle))
    simpa using hno

/-- `growproc` only fails to grow, and then the page table has the entries it had. -/
theorem SysInv.growproc_fail {t : Sys} {p : Slot} (h : SysInv L t g) (hp : (t.proc p).pagetable ≠ 0)
    (n : Int) :
    Wp (PbsCow.growproc L p n) NoError (fun ret t' => ret = -1 → 0 < n ∧ ∀ v, v < MAXV →
      t'.pteAt (t'.proc p).pagetable v = t.pteAt (t.proc p).pagetable v) t := by
  obtain ⟨r, x, hr, hmem, hs, _⟩ := h.space hp
  rw [PbsCow.growproc]
  simp only [wp_bind, wp_get]
  refine .ite (fun hpos => ?_) fun hpos => .ite (fun hneg => ?_) fun hneg => ?_
  · rw [hr]
    simp only [wp_bind, wp_onMem]
    refine (h.good.uvmalloc hmem hs heapFlags).mono ?_
    rintro ret s' ⟨g', hg, _, ⟨rfl, _⟩ | ⟨rfl, _, _, hsame⟩⟩
    · refine .ite_neg (by omega) (wp_bind.2 (wp_setProc.2 (wp_pure.2 ?_)))
      intro h
      cases h
    · refine .ite_pos rfl (wp_pure.2 fun _ => ⟨hpos, fun v hv => ?_⟩)
      rw [Sys.pteAt, Sys.pteAt, hr, h.good.rep.pte_page (h.good.space.live r hmem) hv, ← hsame.pt]
      exact hg.rep.pte_page (hg.space.live r hmem) hv
  · rw [hr]
    simp only [wp_bind, wp_onMem]
    refine (h.good.uvmdealloc hmem hs.le hs.mapped).mono fun _ _ _ => ?_
    refine wp_setProc.2 (wp_pure.2 fun h => ?_)
    cases h
  · refine wp_bind.2 (wp_setProc.2 (wp_pure.2 fun h => ?_))
    cases h

theorem lt_npages (h : v * PGSIZE < sz) : v < npages sz := by
  simp only [npages, PGSIZE] at *
  omega

theorem resizePages_low (hv : v < n) (hv' : v < n') : resizePages n n' f v = f v := by
  rw [resizePages, if_neg (by omega), if_neg (by omega)]

/-- `growproc` keeps its promise exactly if the new size is not below zero. -/
theorem GrowprocPost.sbrk_iff {t t' : Sys} {p : Slot} (h : GrowprocPost L p n t ret t') (hi : Inv L t)
    (hp : (t.proc p).state ≠ .UNUSED) (hfail : ret = -1 → 0 < n ∧ ∀ v, v < MAXV →
      t'.pteAt (t'.proc p).pagetable v = t.pteAt (t.proc p).pagetable v) :
    t.Sbrk t' p n ret ↔ 0 ≤ ((t.proc p).sz : Int) + n := by
  have hi' := h.toInv hi.settled hp
  have hp' : (t'.proc p).state ≠ .UNUSED := by
    rw [h.proc]
    exact hp
  constructor
  · rintro (⟨rfl, _⟩ | ⟨_, hsz, _⟩)
    · have hpos := (hfail rfl).1
      omega
    · omega
  · intro hle
    rcases h.result with ⟨rfl, hsz, hpages⟩ | ⟨rfl, hsz, hpages⟩
    · exact .inl ⟨rfl, hsz, hpages, (hfail rfl).2⟩
    · refine .inr ⟨rfl, ?_, hi'.pages_isSome hp', fun v hv => ?_, fun v u hnone hsome => ?_⟩
      · rw [hsz, sbrkSize, if_neg (by omega)]
        omega
      · rw [hpages]
        exact resizePages_low (lt_npages (by omega)) (lt_npages (by omega))
      · rw [hpages, resizePages] at hsome
        split at hsome
        · injection hsome with hsome
          rw [← hsome]
          rfl
        · split at hsome
          · cases hsome
          · rw [hnone] at hsome
            cases hsome

theorem Inv.growproc_sbrk {t : Sys} {p : Slot} (h : Inv L t) (hp : (t.proc p).state ≠ .UNUSED)
    (n : BitVec 32) :
    Wp (PbsCow.growproc L p n.toInt) NoError
      (fun ret t' => t.Sbrk t' p n.toInt ret ↔ 0 ≤ ((t.proc p).sz : Int) + n.toInt) t := by
  obtain ⟨g, hg⟩ := h.sys
  have hp0 := (h.settled.used p hp).1
  refine ((hg.growproc hp0 n.toInt (BitVec.le_toInt n)).and (hg.growproc_fail hp0 n.toInt)).mono ?_
  rintro ret t' ⟨hpost, hfail⟩
  exact hpost.sbrk_iff h hp hfail

/-- `growproc` keeps its contract exactly if the size that is asked for is not below zero. -/
theorem sbrk_contract_iff {t : Sys} {p : Slot} (h : Reachable L t) (hp : (t.proc p).state ≠ .UNUSED)
    (n : BitVec 32) :
    Wp (growproc L p n.toInt) NoError
      (fun ret t' => t.Sbrk t' p n.toInt ret ↔ 0 ≤ ((t.proc p).sz : Int) + n.toInt) t :=
  h.inv.growproc_sbrk hp n

/-- The first process asks for another page. -/
theorem sbrk_contract_iff_page : ∃ t p, Reachable imageLayout t ∧ (t.proc p).state = .RUNNING ∧
    ∃ ret t', growproc imageLayout p 4096 t = .ok (ret, t') ∧ t.Sbrk t' p 4096 ret := by
  obtain ⟨t, p, g, r, x, _, hreach, hb⟩ := Reachable.init imageLayout fun _ _ => 0
  have h := sbrk_contract_iff hreach (p := p) (by rw [hb.state]; simp) 4096
  obtain ⟨ret, t', he, hiff⟩ := h.exists_ok
  refine ⟨t, p, hreach, hb.state, ret, t', he, hiff.2 ?_⟩
  rw [hb.sz]
  decide

/-- The first process has one page, and gives back two. -/
theorem sbrk_below_zero : ∃ t p, Reachable imageLayout t ∧ (t.proc p).state = .RUNNING ∧
    (t.proc p).sz = 4096 ∧
    ∃ ret t', growproc imageLayout p (-8192) t = .ok (ret, t') ∧ ¬ t.Sbrk t' p (-8192) ret := by
  obtain ⟨t, p, g, r, x, _, hreach, hb⟩ := Reachable.init imageLayout fun _ _ => 0
  have h := hb.toInv.growproc_sbrk (p := p) (by rw [hb.state]; simp) (-8192)
  obtain ⟨ret, t', he, hiff⟩ := h.exists_ok
  refine ⟨t, p, hreach, hb.state, hb.sz, ret, t', he, fun hs => ?_⟩
  have hle := hiff.1 hs
  rw [hb.sz] at hle
  exact absurd hle (by decide)

end PbsCow

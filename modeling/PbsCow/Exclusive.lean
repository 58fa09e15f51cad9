import PbsCow.Accounting

namespace PbsCow
set_option autoImplicit true

/-- The page tables that there are: the kernel's and those of the processes. -/
def Sys.IsPagetable (t : Sys) (pagetable : Nat) : Prop :=
  pagetable = t.kernel_pagetable ∨ ∃ i, (t.proc i).pagetable = pagetable ∧ pagetable ≠ 0

/-- The PTE for page `v` of a page table. -/
def Sys.pteAt (t : Sys) (pagetable v : Nat) : Word := t.mem.pte pagetable (v * PGSIZE)

/-- Process `i` has a leaf PTE for page `v`, which lies below its size. -/
def Sys.UserPte (t : Sys) (i : Slot) (v : Nat) : Prop :=
  (t.proc i).pagetable ≠ 0 ∧ v * PGSIZE < (t.proc i).sz ∧
    flag (t.pteAt (t.proc i).pagetable v) PTE_V = true

/-- Two leaf PTEs of page tables map the same physical page. -/
def Sys.SamePage (t : Sys) (pagetable v pagetable' v' : Nat) : Prop :=
  t.IsPagetable pagetable' ∧ v' < MAXV ∧ flag (t.pteAt pagetable' v') PTE_V = true ∧
    ppn (t.pteAt pagetable' v') = ppn (t.pteAt pagetable v)

/-- Writable means exclusive; PTEs in `Apart` are not counted as other mappings of a page. -/
structure Sys.Exclusive (t : Sys) (Apart : Nat → Nat → Prop) : Prop where
  only : ∀ i v, t.UserPte i v → flag (t.pteAt (t.proc i).pagetable v) PTE_W = true →
    ∀ pagetable' v', t.SamePage (t.proc i).pagetable v pagetable' v' →
      pagetable' = (t.proc i).pagetable ∧ v' = v ∨ Apart pagetable' v'
  count : ∀ i v, t.UserPte i v → flag (t.pteAt (t.proc i).pagetable v) PTE_W = true →
    t.mem.count (ppn (t.pteAt (t.proc i).pagetable v)) = 1
  cow : ∀ i v, t.UserPte i v → flag (t.pteAt (t.proc i).pagetable v) PTE_W = true →
    flag (t.pteAt (t.proc i).pagetable v) PTE_COW = false
  shared : ∀ i v j w, t.UserPte i v → t.UserPte j w → ¬ (i = j ∧ v = w) →
    ppn (t.pteAt (t.proc i).pagetable v) = ppn (t.pteAt (t.proc j).pagetable w) →
    flag (t.pteAt (t.proc i).pagetable v) PTE_W = false ∧
      flag (t.pteAt (t.proc j).pagetable w) PTE_W = false

/-- The kernel's page table maps physical page `v` at address `v`. -/
def Sys.Direct (t : Sys) (pagetable v : Nat) : Prop :=
  pagetable = t.kernel_pagetable ∧ ppn (t.pteAt pagetable v) = v

/-- A user PTE in the terms of the invariant. -/
theorem SysInv.userPte {t : Sys} (h : SysInv L t g) (hu : t.UserPte i v) :
    ∃ r, (t.proc i).pagetable = r * PGSIZE ∧ r ∈ t.roots ∧ v < npages (t.proc i).sz ∧ v < TFV ∧
      g.pt r v ≠ 0 ∧ t.pteAt (t.proc i).pagetable v = g.pt r v := by
  obtain ⟨hp, hv, _⟩ := hu
  obtain ⟨r, _, hr, hm, hs, _⟩ := h.space hp
  have hn : v < npages (t.proc i).sz := by
    simp only [npages, PGSIZE] at *
    omega
  have hT := Nat.lt_of_lt_of_le hn hs.le
  refine ⟨r, hr, hm, hn, hT, hs.mapped v hn, ?_⟩
  rw [Sys.pteAt, hr]
  exact h.pte hm (Nat.lt_trans hT (by decide))

/-- The pages that a process maps above its user memory are not user pages. -/
theorem Inv.high_not_user {t : Sys} {j : Slot} (h : Settled t) (hg : SysInv L t g)
    (hj : (t.proc j).pagetable = r * PGSIZE) (hp : (t.proc j).pagetable ≠ 0) (hv : TFV ≤ v)
    (hv' : v < MAXV) : g.own (ppn (g.pt r v)) ≠ .user := by
  obtain ⟨r', x, hr', _, _, hh, hx, _, htf⟩ := hg.space hp
  obtain rfl := page_inj (hr'.symm.trans hj)
  have hne : (t.proc j).state ≠ .UNUSED := fun hu => hp (h.unused j hu).pagetable
  have hcase : v = TFV ∨ v = TFV + 1 := by
    simp only [TFV, MAXV] at *
    omega
  rcases hcase with rfl | rfl
  · rw [hh.trapframe, ppn_mkPte hx (by decide)]
    have htf' := htf.resolve_left (h.used j hne).2
    rw [hg.trapframe_held htf' (h.used j hne).2]
    simp
  · rw [hh.trampoline, ppn_mkPte L.trampoline_lt44 (by decide)]
    intro hu
    exact L.trampoline_not_managed ((hg.good.rep.page.managed _).1 (by rw [hu]; simp))

theorem SysInv.mappers_writable {t : Sys} (h : SysInv L t g) (hr : r ∈ t.roots) (hv : v < TFV)
    (hne : g.pt r v ≠ 0) (hw : (g.pt r v).getLsbD 2 = true) :
    mappers g t.roots (ppn (g.pt r v)) = {(r, v)} := by
  ext ⟨r', v'⟩
  rw [mem_mappers, Finset.mem_singleton, Prod.mk.injEq]
  constructor
  · rintro ⟨hr', hv', hm⟩
    exact h.good.space.excl r hr v hv hw r' hr' v' hv' hm
  · rintro ⟨rfl, rfl⟩
    exact ⟨hr, hv, hne, rfl⟩

/-- Writable means exclusive, but for the kernel's own view of physical memory. -/
theorem Inv.exclusive {t : Sys} (h : Inv L t) : t.Exclusive t.Direct := by
  obtain ⟨g, hg⟩ := h.sys
  have hexcl {i j : Slot} {v w : Nat} (hi : t.UserPte i v) (hj : t.UserPte j w)
      (he : ppn (t.pteAt (t.proc i).pagetable v) = ppn (t.pteAt (t.proc j).pagetable w))
      (hw : flag (t.pteAt (t.proc i).pagetable v) PTE_W = true) : i = j ∧ v = w := by
    obtain ⟨r, hr, hm, _, hv, hne, hpte⟩ := hg.userPte hi
    obtain ⟨r', hr', hm', _, hv', hne', hpte'⟩ := hg.userPte hj
    rw [hpte, flag_W] at hw
    rw [hpte, hpte'] at he
    obtain ⟨rfl, rfl⟩ := hg.good.space.excl r hm v hv hw r' hm' w hv' ⟨hne', he.symm⟩
    exact ⟨hg.inj i j (hr.trans hr'.symm) hi.1, rfl⟩
  refine ⟨fun i v hu hw pagetable' v' hsame => ?_, fun i v hu hw => ?_, fun i v hu hw => ?_,
    fun i v j w hi hj hne he => ⟨?_, ?_⟩⟩
  · obtain ⟨r, hr, hm, _, hv, hne, hpte⟩ := hg.userPte hu
    obtain ⟨htab, hv', hV, he⟩ := hsame
    rw [hpte] at hw he
    rw [flag_W] at hw
    have huser := hg.good.space.target r hm v hv hne
    rcases htab with rfl | ⟨j, rfl, hp⟩
    · have hk : t.pteAt t.kernel_pagetable v' = g.pt (t.kernel_pagetable / PGSIZE) v' := by
        rw [Sys.pteAt, hg.kernel_root]
        simp only [page_div]
        exact hg.good.rep.pte_page hg.static.live hv'
      rw [hk] at hV he
      have hne' : g.pt (t.kernel_pagetable / PGSIZE) v' ≠ 0 := by
        intro h0
        rw [h0] at hV
        cases hV
      rcases hg.static.leaf v' hne' with hid | ⟨rfl, hid⟩ | ⟨k, hk', rfl⟩
      · refine .inr ⟨rfl, ?_⟩
        rw [hk, hid]
      · rw [he] at hid
        rw [hid] at huser
        exact (L.trampoline_not_managed ((hg.good.rep.page.managed _).1 (by rw [huser]; simp))).elim
      · obtain ⟨y, hy, ho⟩ := hg.static.kstack k hk'
        rw [hy, ppn_mkPte (hg.good.rep.page.lt44 (by rw [ho]; simp)) (by decide)] at he
        rw [← he, ho] at huser
        cases huser
    · obtain ⟨r', _, hr', hm', _⟩ := hg.space hp
      have hpte' : t.pteAt (t.proc j).pagetable v' = g.pt r' v' := by
        rw [Sys.pteAt, hr']
        exact hg.pte hm' hv'
      rw [hpte'] at hV he
      have hne' : g.pt r' v' ≠ 0 := by
        intro h0
        rw [h0] at hV
        cases hV
      by_cases hlow : v' < TFV
      · obtain ⟨rfl, rfl⟩ := hg.good.space.excl r hm v hv hw r' hm' v' hlow ⟨hne', he⟩
        exact .inl ⟨hr'.trans hr.symm, rfl⟩
      · rw [← he] at huser
        exact (Inv.high_not_user h.settled hg hr' hp (by omega) hv' huser).elim
  · obtain ⟨r, hr, hm, _, hv, hne, hpte⟩ := hg.userPte hu
    rw [hpte, flag_W] at hw
    rw [hpte, hg.good.space.count _ (hg.good.space.target r hm v hv hne),
      hg.mappers_writable hm hv hne hw, Finset.card_singleton]
    rfl
  · obtain ⟨r, hr, hm, _, hv, hne, hpte⟩ := hg.userPte hu
    rw [hpte, flag_W] at hw
    rw [hpte, flag_COW, ← getLsbD_PTE_FLAGS _ (by decide)]
    exact (hg.good.space.leaf r hm v hv hne).flags.exclusive (by rwa [getLsbD_PTE_FLAGS _ (by decide)])
  · rw [Bool.eq_false_iff]
    exact fun hw => hne (hexcl hi hj he hw)
  · rw [Bool.eq_false_iff]
    intro hw
    obtain ⟨h1, h2⟩ := hexcl hj hi he.symm hw
    exact hne ⟨h1.symm, h2.symm⟩

/-- In every reachable state a writable user page has no other mapping, but for the kernel's direct
map. -/
theorem writable_exclusive {t : Sys} (h : Reachable L t) : t.Exclusive t.Direct := h.inv.exclusive

theorem writable_exclusive_booted :
    ∃ t, (do boot imageLayout; run imageLayout []) (Sys.start fun _ _ => 0) = .ok ([], t) ∧
      t.Exclusive t.Direct := by
  obtain ⟨t, _, _, _, _, ht, hr, _⟩ := Reachable.boot imageLayout fun _ _ => 0
  exact ⟨t, ht, writable_exclusive hr⟩

/-- The first page of the first process is writable, and the kernel maps it as well. -/
theorem writable_also_direct :
    ∃ t, (do boot imageLayout; run imageLayout []) (Sys.start fun _ _ => 0) = .ok ([], t) ∧
      Reachable imageLayout t ∧ ¬ t.Exclusive fun _ _ => False := by
  obtain ⟨t, p, g, r, x, ht, hreach, hb⟩ := Reachable.boot imageLayout fun _ _ => 0
  refine ⟨t, ht, hreach, fun hex => ?_⟩
  have hpos : 0 < r * PGSIZE := by
    have hl := hb.inv.good.space.live r hb.mem
    exact hb.inv.good.rep.page.pos (by rw [hl]; simp)
  have hpte : t.pteAt (t.proc p).pagetable 0 = g.pt r 0 := by
    rw [Sys.pteAt, hb.root, hb.inv.pte hb.mem (by decide)]
  have hbit {i : Nat} (hi : i < 10) : (g.pt r 0).getLsbD i = initFlags.getLsbD i := by
    rw [hb.pte, getLsbD_mkPte _ _ hi]
  have hx := hb.inv.good.space.target r hb.mem 0 (by decide)
    (by rw [hb.pte]; exact initFlags_ok.mkPte_ne_zero x)
  have hm : imageLayout.Managed (ppn (g.pt r 0)) :=
    (hb.inv.good.rep.page.managed _).1 (by rw [hx]; simp)
  generalize hy : ppn (g.pt r 0) = y at hm
  have hkernel : t.pteAt t.kernel_pagetable y = mkPte y (PTE_R ||| PTE_W ||| PTE_V) := by
    have hlt := hm.lt
    rw [Sys.pteAt, hb.inv.kernel_root, hb.inv.good.rep.pte_page hb.inv.static.live
      (by simp only [MAXV]; omega), hb.inv.static.direct y ?_ hm.2]
    exact Nat.div_le_of_le_mul (by
      rw [Nat.mul_comm]
      exact Nat.le_trans imageLayout.etext_le hm.kend_le)
  have huser : t.UserPte p 0 := by
    refine ⟨by rw [hb.root]; omega, by rw [hb.sz]; decide, ?_⟩
    rw [hpte, flag_V, hbit (by decide)]
    decide
  have hsame : t.SamePage (t.proc p).pagetable 0 t.kernel_pagetable y := by
    have hlt := hm.lt
    refine ⟨.inl rfl, by simp only [MAXV]; omega, ?_, ?_⟩
    · rw [hkernel, flag_V, getLsbD_mkPte _ _ (by decide)]
      decide
    · rw [hkernel, hpte, hy, ppn_mkPte hm.lt44 (by decide)]
  have hw : flag (t.pteAt (t.proc p).pagetable 0) PTE_W = true := by
    rw [hpte, flag_W, hbit (by decide)]
    decide
  rcases hex.only p 0 huser hw _ _ hsame with ⟨hk, _⟩ | hf
  · refine hb.inv.kernel ?_
    rw [hk, hb.root, page_div]
    exact hb.mem
  · exact hf

end PbsCow

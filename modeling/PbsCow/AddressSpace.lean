import PbsCow.Progress

namespace PbsCow
set_option autoImplicit true

/-- The address space of process `p` has the shape that its size promises. -/
structure Sys.WellShaped (L : Layout) (t : Sys) (p : Slot) : Prop where
  le : PGROUNDUP (t.proc p).sz ≤ TRAPFRAME
  leaf : ∀ v, v < 2 ^ 27 → (flag (t.pteAt (t.proc p).pagetable v) PTE_V = true ↔
    v * PGSIZE < PGROUNDUP (t.proc p).sz ∨ v * PGSIZE = TRAPFRAME ∨ v * PGSIZE = TRAMPOLINE)
  trapframe : PTE2PA (t.pteAt (t.proc p).pagetable (TRAPFRAME / PGSIZE)) = (t.proc p).trapframe
  trampoline : PTE2PA (t.pteAt (t.proc p).pagetable (TRAMPOLINE / PGSIZE)) = L.trampoline
  zero : ∀ x ∈ tablePages t.mem.ram 2 ((t.proc p).pagetable / PGSIZE), ∀ i, i < 512 →
    flag (t.mem.ram x i) PTE_V = false → t.mem.ram x i = 0
  inj : ∀ v w, v * PGSIZE < PGROUNDUP (t.proc p).sz → w * PGSIZE < PGROUNDUP (t.proc p).sz →
    ppn (t.pteAt (t.proc p).pagetable v) = ppn (t.pteAt (t.proc p).pagetable w) → v = w

/-- A leaf PTE is valid exactly if there is a mapping. -/
theorem SysInv.valid_iff {t : Sys} {p : Slot} (h : SysInv L t g)
    (hp : (t.proc p).pagetable = r * PGSIZE) (hp0 : (t.proc p).pagetable ≠ 0) (hr : r ∈ t.roots)
    (v : Nat) : (g.pt r v).getLsbD 0 = true ↔ g.pt r v ≠ 0 := by
  constructor
  · intro hv h0
    rw [h0] at hv
    exact absurd hv (by decide)
  · intro hne
    refine h.pte_valid hp hp0 ?_ hne
    by_contra hv
    exact hne (h.good.space.high r hr v (by omega))

/-- The pages that are mapped, in the terms of the invariant. -/
theorem SysInv.mapped_iff {t : Sys} (h : SysInv L t g) (hr : r ∈ t.roots) (hs : Shape g r n)
    (hh : High L g r x) (v : Nat) : g.pt r v ≠ 0 ↔ v < n ∨ v = TFV ∨ v = TFV + 1 := by
  have hT : g.pt r TFV ≠ 0 := by
    rw [hh.trapframe]
    exact UserFlags.mkPte_ne_zero ⟨by decide, by decide, by decide, by decide⟩ x
  have hT' : g.pt r (TFV + 1) ≠ 0 := by
    rw [hh.trampoline]
    exact UserFlags.mkPte_ne_zero ⟨by decide, by decide, by decide, by decide⟩ _
  constructor
  · intro hne
    by_contra hno
    by_cases hv : v < TFV
    · exact hne (hs.none v (by omega) hv)
    · exact hne (h.good.space.high r hr v (by simp only [TFV, MAXV] at *; omega))
  · rintro (hv | rfl | rfl)
    · exact hs.mapped v hv
    · exact hT
    · exact hT'

/-- An entry of a page of a process's page table that is not valid is zero. -/
theorem SysInv.invalid_zero {t : Sys} {p : Slot} (h : SysInv L t g)
    (hp : (t.proc p).pagetable = r * PGSIZE) (hp0 : (t.proc p).pagetable ≠ 0) (hr : r ∈ t.roots)
    (hx : g.own x = .table r l q) (hi : i < 512) (hv : flag (t.mem.ram x i) PTE_V = false) :
    t.mem.ram x i = 0 := by
  cases l with
  | zero =>
    rw [h.good.rep.table.leaf hx hi] at hv ⊢
    by_contra hne
    rw [flag_V, (h.valid_iff hp hp0 hr _).2 hne] at hv
    cases hv
  | succ l =>
    rcases h.good.rep.table.link hx hi with ⟨y, _, he⟩ | ⟨_, he⟩
    · rw [he, flag_link] at hv
      cases hv
    · exact he

/-- The panics that a page table which does not match its process's size would cause. -/
def Panic.OfShape (e : Panic) : Prop :=
  e ∈ [.uvmcopyPteShouldExist, .uvmcopyPageNotPresent, .uvmunmapWalk, .uvmunmapNotMapped,
    .mappagesRemap, .freewalkLeaf]

theorem Inv.wellShaped {t : Sys} {p : Slot} (h : Inv L t) (hp : (t.proc p).state ≠ .UNUSED) :
    t.WellShaped L p := by
  obtain ⟨g, hg⟩ := h.sys
  obtain ⟨hp0, htf⟩ := h.settled.used p hp
  obtain ⟨r, x, hr, hm, hs, hh, hx, _, hcase⟩ := hg.space hp0
  have hup : PGROUNDUP (t.proc p).sz = npages (t.proc p).sz * PGSIZE :=
    PGROUNDUP_npages (add_le_of_npages hs.le)
  have hlt (v : Nat) : v * PGSIZE < PGROUNDUP (t.proc p).sz ↔ v < npages (t.proc p).sz := by
    rw [hup]
    exact Nat.mul_lt_mul_right (by decide)
  have hlow {v : Nat} (hv : v < npages (t.proc p).sz) : v < TFV := Nat.lt_of_lt_of_le hv hs.le
  have hpte {v : Nat} (hv : v < 2 ^ 27) : t.pteAt (t.proc p).pagetable v = g.pt r v := by
    rw [Sys.pteAt, hr, hg.good.rep.pte (hg.good.space.live r hm), page_div]
    simp only [PGSIZE]
    omega
  have hpte' {v : Nat} (hv : v < npages (t.proc p).sz) := hpte (Nat.lt_trans (hlow hv) (by decide))
  refine ⟨?_, fun v hv => ?_, ?_, ?_, fun y hy i hi => ?_, fun v w hv hw he => ?_⟩
  · rw [hup, TRAPFRAME_eq]
    exact Nat.mul_le_mul_right _ hs.le
  · have e1 : v * PGSIZE = TRAPFRAME ↔ v = TFV := by
      rw [TRAPFRAME_eq]
      exact Nat.mul_left_inj (by decide)
    have e2 : v * PGSIZE = TRAMPOLINE ↔ v = TFV + 1 := by
      rw [TRAMPOLINE_eq]
      exact Nat.mul_left_inj (by decide)
    rw [hpte hv, flag_V, hg.valid_iff hr hp0 hm, hg.mapped_iff hm hs hh, hlt, e1, e2]
  · rw [TRAPFRAME_eq, page_div, hpte (by decide), hh.trapframe, PTE2PA_eq, ppn_mkPte hx (by decide)]
    exact (hcase.resolve_left htf).symm
  · rw [TRAMPOLINE_eq, page_div, hpte (by decide), hh.trampoline, PTE2PA_eq,
      ppn_mkPte L.trampoline_lt44 (by decide), L.trampoline_eq]
  · rw [hr, page_div] at hy
    obtain ⟨l, q, hq⟩ := (hg.good.rep.mem_tablePages_root (hg.good.space.live r hm) y).1 hy
    exact hg.invalid_zero hr hp0 hm hq hi
  · rw [hlt] at hv hw
    rw [hpte' hv, hpte' hw] at he
    exact hg.good.space.inj r hm w v (hlow hw) (hlow hv) (hs.mapped w hw) ⟨hs.mapped v hv, he⟩

/-- In every reachable state the address space of every process has the shape that its size
promises, so that no run ends in one of the panics for page tables that do not. -/
theorem address_spaces_well_shaped (L : Layout) (ram : Nat → Page) (ops : List Op) :
    Wp (do boot L; run L ops) (fun e => ¬ e.OfShape)
      (fun _ t => ∀ p, (t.proc p).state ≠ .UNUSED → t.WellShaped L p) (Sys.start ram) := by
  refine ((boot_run L ram ops).weaken fun e he => ?_).mono fun _ t h p hp => h.wellShaped hp
  rw [show e = .initExiting from he]
  simp [Panic.OfShape]

end PbsCow

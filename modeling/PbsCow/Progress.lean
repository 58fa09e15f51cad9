import PbsCow.Exclusive

namespace PbsCow
set_option autoImplicit true

/-- A store that is tried again does not fault again: the process is to be killed, or it may write. -/
def Resolved (t : Sys) (p : Slot) (va : Nat) : Prop :=
  (t.proc p).killed = true ∨
    flag (t.mem.translate (t.proc p).pagetable va) PTE_V = true ∧
    flag (t.mem.translate (t.proc p).pagetable va) PTE_U = true ∧
    flag (t.mem.translate (t.proc p).pagetable va) PTE_W = true

/-- The faults that the branch for store page faults copes with. -/
def Resolvable (t : Sys) (p : Slot) (sp : Word) (va : Nat) : Prop :=
  (t.proc p).killed = true ∨ GuardHit va sp.toNat ∨
    flag (t.mem.translate (t.proc p).pagetable va) PTE_V = false ∨
    flag (t.mem.translate (t.proc p).pagetable va) PTE_COW = true ∧
      (flag (t.mem.translate (t.proc p).pagetable va) PTE_U = true ∨ t.mem.freelist = 0)

theorem SysInv.pte_valid {t : Sys} {p : Slot} (h : SysInv L t g)
    (hp : (t.proc p).pagetable = r * PGSIZE) (hp0 : (t.proc p).pagetable ≠ 0) (hv : v < MAXV)
    (hne : g.pt r v ≠ 0) : (g.pt r v).getLsbD 0 = true := by
  obtain ⟨r', x, hr', hm, _, hh, _⟩ := h.space hp0
  obtain rfl := page_inj (hr'.symm.trans hp)
  by_cases hlow : v < TFV
  · rw [← flag_V]
    exact (h.good.space.leaf r' hm v hlow hne).flag_V
  · have hcase : v = TFV ∨ v = TFV + 1 := by
      simp only [TFV, MAXV] at *
      omega
    rcases hcase with rfl | rfl
    · rw [hh.trapframe, getLsbD_mkPte _ _ (by decide)]
      decide
    · rw [hh.trampoline, getLsbD_mkPte _ _ (by decide)]
      decide

theorem FreeRep.freelist_eq_zero (h : FreeRep L s free) : s.freelist = 0 ↔ free = [] := by
  cases free with
  | nil => exact iff_of_true h.chain rfl
  | cons x f =>
    have hpos := (h.managed x (by simp)).pos
    have hx := h.chain.1
    simp only [reduceCtorEq, iff_false]
    omega

/-- A store that faults meets a page that may not be written. -/
theorem userStore_none {s : Mem} (h : s.userStore pagetable va b = none) :
    ¬ (flag (s.translate pagetable va) PTE_V = true ∧ flag (s.translate pagetable va) PTE_U = true ∧
      flag (s.translate pagetable va) PTE_W = true) := by
  rintro ⟨h1, h2, h3⟩
  simp only [Mem.userStore, h1, h2, h3] at h
  cases h

theorem Touched.translate {t t' : Sys} {p : Slot} (h : Touched L t t') (hg : SysInv L t g)
    (hp : (t.proc p).pagetable = r * PGSIZE) (hr : r ∈ t.roots) (va : Nat) :
    t'.mem.translate (t'.proc p).pagetable va = t.mem.translate (t.proc p).pagetable va := by
  have hroots : t'.roots = t.roots := Sys.roots_congr fun i => by rw [h.proc]
  rw [h.proc, hp, hg.good.translate hr, (h.inv g hg).good.translate (by rwa [hroots])]

/-- After `cowalloc` the process may write, or the fault was one of those it does not cope with. -/
theorem CowPost.resolved {t : Sys} {p : Slot} (hc : CowPost L t.roots r (va / PGSIZE) t.mem g ret s')
    (h : SysInv L t g) (hp : (t.proc p).pagetable = r * PGSIZE) (hp0 : (t.proc p).pagetable ≠ 0)
    (hr : r ∈ t.roots) (hstore : t.mem.userStore (t.proc p).pagetable va b = none) :
    Resolved (({ t with mem := s' } : Sys).setProc p
      (·.killIf (decide (GuardHit va sp.toNat) || decide (ret < 0)))) p va ↔ Resolvable t p sp va := by
  have hno := userStore_none hstore
  have hMAX : va < MAXVA ↔ va / PGSIZE < MAXV := by
    simp only [MAXVA_eq, MAXV, PGSIZE]
    omega
  have htr := h.good.translate hr va
  rw [← hp] at htr
  rw [Resolved, Resolvable, Sys.setProc_self, Proc.killIf]
  dsimp only
  simp only [Bool.or_eq_true, decide_eq_true_eq, or_assoc, Sys.setProc_mem]
  refine or_congr_right (or_congr_right ?_)
  rcases hc with ⟨rfl, rfl, hwhy⟩ | ⟨rfl, rfl, hv, hne, hcow⟩ | ⟨rfl, hv, hne, hcow, hfree, g', hg', _, hu⟩
  · refine iff_of_true (.inl (by decide)) ?_
    rcases hwhy with hv | h0 | ⟨hcow, hfree⟩
    · rw [htr, if_neg (by rw [hMAX]; omega)]
      exact .inl (by decide)
    · rw [htr, h0, ite_self]
      exact .inl (by decide)
    · by_cases hva : va < MAXVA
      · rw [htr, if_pos hva, flag_COW]
        exact .inr ⟨hcow, .inr (h.good.rep.page.freeRep.freelist_eq_zero.2 hfree)⟩
      · rw [htr, if_neg hva]
        exact .inl (by decide)
  · refine iff_of_false ?_ ?_
    · rintro (hlt | hok)
      · exact absurd hlt (by decide)
      · exact hno hok
    · rw [htr, if_pos (hMAX.2 hv), flag_V, flag_COW, hcow, h.pte_valid hp hp0 hv hne]
      simp
  · have hV := h.pte_valid hp hp0 (Nat.lt_trans hv (by decide)) hne
    have hva := hMAX.2 (Nat.lt_trans hv (by decide))
    have htr' := hg'.translate hr va
    rw [← hp] at htr'
    obtain ⟨x, _, _, hpt⟩ := hu.copy
    rw [htr, htr', if_pos hva, if_pos hva, hpt, Function.update_self]
    have hbit {i : Nat} (hi : i < 10) := getLsbD_mkPte x (uncowFlags (PTE_FLAGS (g.pt r (va / PGSIZE)))) hi
    simp only [flag_V, flag_U, flag_W, flag_COW, hbit (show 0 < 10 by decide),
      hbit (show 2 < 10 by decide), hbit (show 4 < 10 by decide), getLsbD_uncowFlags _ (show 0 < 64 by decide),
      getLsbD_uncowFlags _ (show 2 < 64 by decide), getLsbD_uncowFlags _ (show 4 < 64 by decide),
      getLsbD_PTE_FLAGS _ (show 0 < 10 by decide), getLsbD_PTE_FLAGS _ (show 2 < 10 by decide),
      getLsbD_PTE_FLAGS _ (show 4 < 10 by decide), hV, hcow,
      h.good.rep.page.freeRep.freelist_eq_zero, hfree]
    simp

/-- When the branch for store page faults makes progress. -/
theorem Inv.store_fault {t : Sys} {p : Slot} (h : Inv L t) (hp : (t.proc p).state ≠ .UNUSED)
    (hstore : t.mem.userStore (t.proc p).pagetable va b = none) (regs : Regs) :
    Wp (do PbsCow.uservec p regs; PbsCow.storePageFault L p va) NoError
      (fun _ t' => Resolved t' p va ↔ Resolvable t p regs.sp va) t := by
  obtain ⟨g, hg⟩ := h.sys
  obtain ⟨hp0, _⟩ := h.settled.used p hp
  obtain ⟨r, hr, hmem, hh⟩ := hg.highOk hp0
  refine .bind (h.uservec hp regs) ?_
  rintro _ t₁ ⟨h₁, hsp⟩
  have hg₁ := h₁.inv g hg
  have hr₁ : (t₁.proc p).pagetable = r * PGSIZE := by rw [h₁.proc, hr]
  have hroots : t₁.roots = t.roots := Sys.roots_congr fun i => by rw [h₁.proc]
  have hmem₁ : r ∈ t₁.roots := by rwa [hroots]
  have htr := h₁.translate hg hr hmem
  have hstore₁ : t₁.mem.userStore (t₁.proc p).pagetable va b = none := by
    have hno := userStore_none hstore
    rw [← htr] at hno
    rw [Mem.userStore]
    simp only [Bool.and_eq_true, and_assoc, hno, if_false]
  refine (hg₁.storePageFault hr₁ hmem₁ hh (by rw [hsp])).mono ?_
  rintro _ t' ⟨ret, s', hc, rfl⟩
  rw [hc.resolved hg₁ hr₁ (by rwa [h₁.proc]) hmem₁ hstore₁]
  have hfree : t₁.mem.freelist = 0 ↔ t.mem.freelist = 0 := by
    rw [hg₁.good.rep.page.freeRep.freelist_eq_zero, hg.good.rep.page.freeRep.freelist_eq_zero]
  rw [Resolvable, Resolvable, htr, hfree, h₁.proc]

/-- The branch for store page faults makes progress exactly if the process is killed already, the
address is in the range that it kills for, the page is not mapped, or the page is COW and is a user
page or there is no memory left to copy it. -/
theorem store_fault_resolved_iff {t : Sys} {p : Slot} (h : Reachable L t)
    (hp : (t.proc p).state = .RUNNING)
    (hstore : t.mem.userStore (t.proc p).pagetable va b = none) (regs : Regs) :
    Wp (do uservec p regs; storePageFault L p va) NoError
      (fun _ t' => Resolved t' p va ↔ Resolvable t p regs.sp va) t :=
  h.inv.store_fault (by rw [hp]; simp) hstore regs

theorem store_trapframe_faults {t : Sys} {p : Slot} (h : SysInv L t g) (hp : (t.proc p).pagetable ≠ 0) :
    t.mem.userStore (t.proc p).pagetable TRAPFRAME b = none := by
  obtain ⟨r, x, hr, hm, _, hh, _⟩ := h.space hp
  have hU : flag (t.mem.translate (t.proc p).pagetable TRAPFRAME) PTE_U = false := by
    rw [hr, h.good.translate hm, if_pos (by decide), TRAPFRAME_eq, page_div, hh.trapframe, flag_U,
      getLsbD_mkPte _ _ (by decide)]
    decide
  rw [Mem.userStore]
  simp only [hU, Bool.and_false, Bool.false_and]
  rfl

theorem SysInv.store_trapframe_unresolvable {t : Sys} {p : Slot} (h : SysInv L t g)
    (hp : (t.proc p).pagetable ≠ 0) (hk : (t.proc p).killed = false)
    (hsp : ¬ GuardHit TRAPFRAME sp.toNat) : ¬ Resolvable t p sp TRAPFRAME := by
  obtain ⟨r, x, hr, hm, _, hh, _⟩ := h.space hp
  have hpte : t.mem.translate (t.proc p).pagetable TRAPFRAME = mkPte x (PTE_R ||| PTE_W ||| PTE_V) := by
    rw [hr, h.good.translate hm, if_pos (by decide), TRAPFRAME_eq, page_div, hh.trapframe]
  have hV : flag (mkPte x (PTE_R ||| PTE_W ||| PTE_V)) PTE_V = true := by
    rw [flag_V, getLsbD_mkPte _ _ (by decide)]
    decide
  have hcow : flag (mkPte x (PTE_R ||| PTE_W ||| PTE_V)) PTE_COW = false := by
    rw [flag_COW, getLsbD_mkPte _ _ (by decide)]
    decide
  rw [Resolvable, hpte, hV, hcow, hk]
  simp [hsp]

/-- The first process stores to its trapframe: the fault is handled, and will come again. -/
theorem store_trapframe_faults_again :
    ∃ t p, (do boot imageLayout; run imageLayout [.dispatch p]) (Sys.start fun _ _ => 0) =
        .ok ([.done], t) ∧ Reachable imageLayout t ∧ (t.proc p).state = .RUNNING ∧
      t.mem.userStore (t.proc p).pagetable TRAPFRAME 0 = none ∧
      Wp (do uservec p ⟨0, 0⟩; storePageFault imageLayout p TRAPFRAME) NoError
        (fun _ t' => ¬ Resolved t' p TRAPFRAME) t := by
  obtain ⟨t, p, g, r, x, ht, hreach, hb⟩ := Reachable.init imageLayout fun _ _ => 0
  have hne : (t.proc p).state ≠ .UNUSED := by
    rw [hb.state]
    simp
  have hp0 := (hb.settled.used p hne).1
  have hstore := store_trapframe_faults (b := 0) hb.inv hp0
  refine ⟨t, p, ht, hreach, hb.state, hstore, (hb.toInv.store_fault hne hstore ⟨0, 0⟩).mono ?_⟩
  intro _ t' hiff
  rw [hiff]
  exact hb.inv.store_trapframe_unresolvable hp0 hb.killed (by decide)

theorem store_fault_resolved_iff_trapframe :
    ∃ t p, (do boot imageLayout; run imageLayout [.dispatch p]) (Sys.start fun _ _ => 0) =
        .ok ([.done], t) ∧
      Wp (do uservec p ⟨0, 0⟩; storePageFault imageLayout p TRAPFRAME) NoError
        (fun _ t' => Resolved t' p TRAPFRAME ↔ Resolvable t p 0 TRAPFRAME) t := by
  obtain ⟨t, p, g, r, x, ht, hreach, hb⟩ := Reachable.init imageLayout fun _ _ => 0
  have hp0 := (hb.settled.used p (by rw [hb.state]; simp)).1
  exact ⟨t, p, ht, store_fault_resolved_iff hreach hb.state
    (store_trapframe_faults (b := 0) hb.inv hp0) ⟨0, 0⟩⟩

end PbsCow

import PbsCow.Lib.Counting
import PbsCow.Refinement
import Mathlib.Algebra.BigOperators.Group.Finset.Sigma

namespace PbsCow
set_option autoImplicit true

/-- The number of user leaf PTEs for addresses below the size of their process that map page `x`. -/
def Sys.userPtes (t : Sys) (x : Nat) : Nat :=
  ∑ i : Slot, ((Finset.range (npages (t.proc i).sz)).filter fun v =>
    flag (t.mem.pte (t.proc i).pagetable (v * PGSIZE)) PTE_V = true ∧
      ppn (t.mem.pte (t.proc i).pagetable (v * PGSIZE)) = x).card

/-- How often page `x` occurs among the pages of a page table; 0 is no page table. -/
def Mem.tableCount (s : Mem) (pagetable x : Nat) : Nat :=
  if pagetable = 0 then 0 else (tablePages s.ram 2 (pagetable / PGSIZE)).count x

/-- The number of page-table pages at `x`, in the kernel's page table and in those of processes. -/
def Sys.tableOwners (t : Sys) (x : Nat) : Nat :=
  t.mem.tableCount t.kernel_pagetable x + ∑ i : Slot, t.mem.tableCount (t.proc i).pagetable x

def Sys.trapframeOwners (t : Sys) (x : Nat) : Nat :=
  (Finset.univ.filter fun i : Slot => (t.proc i).trapframe = x * PGSIZE).card

def Sys.kstackOwners (t : Sys) (x : Nat) : Nat :=
  (Finset.univ.filter fun i : Slot => flag (t.mem.pte t.kernel_pagetable (KSTACK i)) PTE_V = true ∧
    ppn (t.mem.pte t.kernel_pagetable (KSTACK i)) = x).card

/-- The kernel's claims to page `x`: page-table pages, trapframes, kernel stacks, the disk's rings,
pipes, and the arguments of a running `exec`. -/
def Sys.kernelOwners (t : Sys) (x : Nat) : Nat :=
  t.tableOwners x + t.trapframeOwners x + t.kstackOwners x + t.disk.count (x * PGSIZE) +
    (t.pipes.map Pipe.page).count (x * PGSIZE) + t.argv.count (x * PGSIZE)

theorem SysInv.kernel_root {t : Sys} (h : SysInv L t g) :
    t.kernel_pagetable = t.kernel_pagetable / PGSIZE * PGSIZE :=
  (Nat.div_mul_cancel (Nat.dvd_of_mod_eq_zero h.aligned)).symm

open Classical in
theorem Rep.tableCount (h : Rep L s g) (hr : g.Live r) (x : Nat) :
    s.tableCount (r * PGSIZE) x = if ∃ l p, g.own x = .table r l p then 1 else 0 := by
  have hpos := h.page.pos (x := r) (by rw [hr]; simp)
  rw [Mem.tableCount, if_neg (by omega), page_div, (h.nodup_tablePages hr).count]
  exact if_congr (h.mem_tablePages_root hr x) rfl rfl

open Classical in
theorem SysInv.slotTables {t : Sys} (h : SysInv L t g) (x : Nat) :
    ∑ i : Slot, t.mem.tableCount (t.proc i).pagetable x =
      if ∃ r ∈ t.roots, ∃ l p, g.own x = .table r l p then 1 else 0 := by
  rw [Finset.sum_unique (P := fun i => (t.proc i).pagetable ≠ 0 ∧
    ∃ l p, g.own x = .table ((t.proc i).pagetable / PGSIZE) l p)]
  · refine if_congr ⟨?_, ?_⟩ rfl rfl
    · rintro ⟨i, _, hi, ho⟩
      exact ⟨_, t.mem_roots.2 ⟨i, hi, rfl⟩, ho⟩
    · rintro ⟨r, hr, ho⟩
      obtain ⟨i, hi, rfl⟩ := t.mem_roots.1 hr
      exact ⟨i, Finset.mem_univ i, hi, ho⟩
  · rintro i _ j _ ⟨hi, l, p, ho⟩ ⟨hj, l', p', ho'⟩
    rw [ho, Owner.table.injEq] at ho'
    obtain ⟨ri, _, hri, _⟩ := h.space hi
    obtain ⟨rj, _, hrj, _⟩ := h.space hj
    have he := ho'.1
    rw [hri, hrj, page_div, page_div] at he
    exact h.inj i j (by rw [hri, hrj, he]) hi
  · intro i _
    by_cases hi : (t.proc i).pagetable = 0
    · rw [if_neg fun hc => hc.1 hi, hi]
      rfl
    · obtain ⟨r, _, hr, hmem, _⟩ := h.space hi
      rw [hr, h.good.rep.tableCount (h.good.space.live r hmem), page_div]
      exact if_congr ⟨fun hc => ⟨hr ▸ hi, hc⟩, fun hc => hc.2⟩ rfl rfl

open Classical in
theorem SysInv.tableOwners {t : Sys} (h : SysInv L t g) (x : Nat) :
    t.tableOwners x = if ∃ r l p, g.own x = .table r l p then 1 else 0 := by
  rw [Sys.tableOwners, h.slotTables, h.kernel_root, h.good.rep.tableCount h.static.live]
  by_cases hk : ∃ l p, g.own x = .table (t.kernel_pagetable / PGSIZE) l p
  · obtain ⟨l, p, ho⟩ := hk
    rw [if_pos ⟨l, p, ho⟩, if_neg, if_pos ⟨_, l, p, ho⟩]
    rintro ⟨r, hr, l', p', ho'⟩
    rw [ho, Owner.table.injEq] at ho'
    exact h.kernel (ho'.1 ▸ hr)
  · rw [if_neg hk, Nat.zero_add]
    refine if_congr ⟨?_, ?_⟩ rfl rfl
    · rintro ⟨r, _, l, p, ho⟩
      exact ⟨r, l, p, ho⟩
    · rintro ⟨r, l, p, ho⟩
      rcases h.tables x r l p ho with hr | rfl
      · exact ⟨r, hr, l, p, ho⟩
      · exact (hk ⟨l, p, ho⟩).elim

open Classical in
theorem SysInv.trapframeOwners {t : Sys} (h : SysInv L t g) (hx : 0 < x * PGSIZE) :
    t.trapframeOwners x = if ∃ i, g.own x = .held (.trapframe i) then 1 else 0 := by
  have hiff (i : Slot) : (t.proc i).trapframe = x * PGSIZE ↔ g.own x = .held (.trapframe i) := by
    constructor
    · intro hi
      exact h.trapframe_held hi (by omega)
    · intro ho
      exact (h.holder x _ ho).2
  rw [Sys.trapframeOwners, Finset.card_unique]
  · refine if_congr ⟨?_, ?_⟩ rfl rfl
    · rintro ⟨i, _, hi⟩
      exact ⟨i, (hiff i).1 hi⟩
    · rintro ⟨i, ho⟩
      obtain ⟨hi, htf⟩ := h.holder x _ ho
      exact ⟨⟨i, hi⟩, Finset.mem_univ _, htf⟩
  · intro i _ j _ hi hj
    rw [hiff] at hi hj
    rw [hi, Owner.held.injEq, Holder.trapframe.injEq] at hj
    exact Fin.ext hj

/-- The PTE of a kernel stack. -/
theorem SysInv.kstack_pte {t : Sys} (h : SysInv L t g) (hi : i < NPROC) :
    ∃ y, t.mem.pte t.kernel_pagetable (KSTACK i) = mkPte y (PTE_R ||| PTE_W ||| PTE_V) ∧
      g.own y = .held (.kstack i) := by
  obtain ⟨y, hy, ho⟩ := h.static.kstack i hi
  obtain ⟨hK, hV⟩ := KSTACK_eq hi
  refine ⟨y, ?_, ho⟩
  rw [h.kernel_root, hK, h.good.rep.pte_page h.static.live, hy]
  rw [hV]
  simp only [MAXV]
  omega

open Classical in
theorem SysInv.kstackOwners {t : Sys} (h : SysInv L t g) (x : Nat) :
    t.kstackOwners x = if ∃ i, g.own x = .held (.kstack i) then 1 else 0 := by
  have hiff (i : Slot) : (flag (t.mem.pte t.kernel_pagetable (KSTACK i)) PTE_V = true ∧
      ppn (t.mem.pte t.kernel_pagetable (KSTACK i)) = x) ↔ g.own x = .held (.kstack i) := by
    obtain ⟨y, hy, ho⟩ := h.kstack_pte i.2
    have hp := ppn_mkPte (f := PTE_R ||| PTE_W ||| PTE_V)
      (h.good.rep.page.lt44 (x := y) (by rw [ho]; simp)) (by decide)
    have hv : flag (mkPte y (PTE_R ||| PTE_W ||| PTE_V)) PTE_V = true := by
      rw [flag_V, getLsbD_mkPte _ _ (by decide)]
      decide
    rw [hy, hp, hv]
    constructor
    · rintro ⟨_, rfl⟩
      exact ho
    · intro hx
      obtain ⟨_, hpx⟩ := h.holder x _ hx
      obtain ⟨_, hpy⟩ := h.holder y _ ho
      exact ⟨rfl, hpy.symm.trans hpx⟩
  rw [Sys.kstackOwners, Finset.card_unique]
  · refine if_congr ⟨?_, ?_⟩ rfl rfl
    · rintro ⟨i, _, hi⟩
      exact ⟨i, (hiff i).1 hi⟩
    · rintro ⟨i, ho⟩
      obtain ⟨hi, _⟩ := h.holder x _ ho
      exact ⟨⟨i, hi⟩, Finset.mem_univ _, (hiff ⟨i, hi⟩).2 ho⟩
  · intro i _ j _ hi hj
    rw [hiff] at hi hj
    rw [hi, Owner.held.injEq, Holder.kstack.injEq] at hj
    exact Fin.ext hj

open Classical in
theorem HeldList.count (h : HeldList g o l) (x : Nat) :
    l.count (x * PGSIZE) = if g.own x = .held o then 1 else 0 := by
  rw [h.nodup.count]
  refine if_congr ((h.mem _).trans ⟨?_, fun ho => ⟨x, rfl, ho⟩⟩) rfl rfl
  rintro ⟨y, hy, ho⟩
  rwa [page_inj hy]

open Classical in
theorem SysInv.ringOwners {t : Sys} (h : SysInv L t g) (x : Nat) :
    t.disk.count (x * PGSIZE) = if ∃ i, g.own x = .held (.ring i) then 1 else 0 := by
  have hring (i : Nat) : t.disk[i]? = some (x * PGSIZE) ↔ g.own x = .held (.ring i) := by
    refine ⟨fun hi => ?_, h.holder x (.ring i)⟩
    obtain ⟨y, hy, ho⟩ := h.static.ring i _ hi
    rwa [page_inj hy]
  have hnd : t.disk.Nodup := by
    rw [List.nodup_iff_getElem?_ne_getElem?]
    intro i j hij hj he
    obtain ⟨y, hy, ho⟩ := h.static.ring j _ (List.getElem?_eq_getElem hj)
    obtain ⟨z, hz, ho'⟩ := h.static.ring i _ (he.trans (List.getElem?_eq_getElem hj))
    rw [page_inj (hy.symm.trans hz), ho', Owner.held.injEq, Holder.ring.injEq] at ho
    omega
  rw [hnd.count]
  refine if_congr ⟨fun hm => ?_, ?_⟩ rfl rfl
  · obtain ⟨i, hi⟩ := List.mem_iff_getElem?.1 hm
    exact ⟨i, (hring i).1 hi⟩
  · rintro ⟨i, ho⟩
    exact List.mem_iff_getElem?.2 ⟨i, (hring i).2 ho⟩

/-- The mappings of page `x` in one address space. -/
theorem SysInv.slotPtes {t : Sys} {i : Slot} (h : SysInv L t g) (hr : (t.proc i).pagetable = r * PGSIZE)
    (hm : r ∈ t.roots) (hs : Shape g r (npages (t.proc i).sz)) (x : Nat) :
    ((Finset.range (npages (t.proc i).sz)).filter fun v =>
      flag (t.mem.pte (t.proc i).pagetable (v * PGSIZE)) PTE_V = true ∧
        ppn (t.mem.pte (t.proc i).pagetable (v * PGSIZE)) = x) =
      (Finset.range TFV).filter fun v => Maps (g.pt r v) x := by
  have hle := hs.le
  have hpte (v : Nat) (hv : v < TFV) : t.mem.pte (t.proc i).pagetable (v * PGSIZE) = g.pt r v := by
    rw [hr]
    exact h.pte hm (Nat.lt_trans hv (by decide))
  ext v
  simp only [Finset.mem_filter, Finset.mem_range]
  constructor
  · rintro ⟨hv, _, hx⟩
    rw [hpte v (by omega)] at hx
    exact ⟨by omega, hs.mapped v hv, hx⟩
  · rintro ⟨hv, hne, hx⟩
    rw [hpte v hv, (h.good.space.leaf r hm v hv hne).flag_V]
    refine ⟨?_, rfl, hx⟩
    by_contra hge
    exact hne (hs.none v (by omega) hv)

theorem SysInv.userPtes {t : Sys} (h : SysInv L t g) (x : Nat) :
    t.userPtes x = (mappers g t.roots x).card := by
  have hmap : (mappers g t.roots x).card =
      ∑ r ∈ t.roots, ((Finset.range TFV).filter fun v => Maps (g.pt r v) x).card := by
    simp only [mappers, Finset.card_filter, Finset.sum_product]
  have hinj : Set.InjOn (fun i => (t.proc i).pagetable / PGSIZE)
      (Finset.univ.filter fun i => (t.proc i).pagetable ≠ 0 : Finset Slot) := by
    intro i hi j hj he
    have hi' : (t.proc i).pagetable ≠ 0 := by simpa using hi
    have hj' : (t.proc j).pagetable ≠ 0 := by simpa using hj
    obtain ⟨ri, _, hri, _⟩ := h.space hi'
    obtain ⟨rj, _, hrj, _⟩ := h.space hj'
    simp only [hri, hrj, page_div] at he
    exact h.inj i j (by rw [hri, hrj, he]) hi'
  rw [hmap, Sys.roots, Finset.sum_image hinj, Sys.userPtes]
  symm
  refine Finset.sum_subset_zero_on_sdiff (Finset.filter_subset _ _) (fun i hi => ?_) fun i hi => ?_
  · have h0 : (t.proc i).pagetable = 0 := by simpa using hi
    rcases (h.slot i).pagetable with ⟨_, hsz⟩ | ⟨r, _, hr, hpos, _⟩
    · rw [hsz]
      rfl
    · omega
  · have hi' : (t.proc i).pagetable ≠ 0 := by simpa using hi
    obtain ⟨r, _, hr, hm, hs, _⟩ := h.space hi'
    rw [h.slotPtes hr hm hs, hr, page_div]

/-- Exact accounting: every page that `kinit` handed over has as many references as it has user
mappings and kernel owners, and is on the free list, once, if it has none. -/
def Accounted (L : Layout) (t : Sys) : Prop :=
  ∃ free, Chain t.mem.ram t.mem.freelist free ∧ ∀ x, L.Managed x →
    t.mem.count x = t.userPtes x + t.kernelOwners x ∧
      free.count x = if t.userPtes x + t.kernelOwners x = 0 then 1 else 0

theorem SysInv.accounted {t : Sys} (h : SysInv L t g) : Accounted L t := by
  classical
  have hpage := h.good.rep.page
  refine ⟨g.free, hpage.freeRep.chain, fun x hm => ?_⟩
  have hfree : g.free.count x = if g.own x = .free then 1 else 0 := by
    rw [hpage.freeRep.nodup.count]
    exact if_congr (hpage.mem_free x) rfl rfl
  rw [hfree, h.userPtes, Sys.kernelOwners, h.tableOwners, h.trapframeOwners hm.pos, h.kstackOwners,
    h.ringOwners, h.pipes.count, h.args.count]
  have hne := (hpage.managed x).2 hm
  cases ho : g.own x with
  | outside => exact (hne ho).elim
  | free =>
    have hzero := hpage.freeRep.zero x ((hpage.mem_free x).2 ho)
    simp [hzero, h.good.space.no_mapper (x := x) (by rw [ho]; simp)]
  | table r l p =>
    have hone := hpage.count_table x r l p ho
    simp [hone, h.good.space.no_mapper (x := x) (by rw [ho]; simp)]
  | user =>
    have hcount := h.good.space.count x ho
    have hpos := hpage.count_user x ho
    have hcard : (mappers g t.roots x).card ≠ 0 := by omega
    simp [hcount, hcard]
  | held k =>
    have hone := hpage.count_held x k ho
    have hno := h.good.space.no_mapper (x := x) (by rw [ho]; simp)
    cases k with
    | fresh => exact (h.holder x _ ho).elim
    | _ => simp [hone, hno]

/-- Whatever a booted kernel runs, between operations its pages are accounted for; it does not stop
with an error other than the exit of the first process. -/
theorem pages_accounted (L : Layout) (ram : Nat → Page) (ops : List Op) :
    Wp (do boot L; run L ops) (fun e => e = .initExiting) (fun _ t => Accounted L t)
      (Sys.start ram) := by
  refine (boot_run L ram ops).mono fun _ t hi => ?_
  obtain ⟨g, hg⟩ := hi.sys
  exact hg.accounted

end PbsCow

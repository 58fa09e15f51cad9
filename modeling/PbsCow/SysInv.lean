import PbsCow.Proc

namespace PbsCow
set_option autoImplicit true

/-- The page numbers of the roots of the processes' page tables. -/
def Sys.roots (t : Sys) : Finset Nat :=
  (Finset.univ.filter fun i => (t.proc i).pagetable ≠ 0).image fun i => (t.proc i).pagetable / PGSIZE

theorem Sys.mem_roots (t : Sys) :
    r ∈ t.roots ↔ ∃ i, (t.proc i).pagetable ≠ 0 ∧ (t.proc i).pagetable / PGSIZE = r := by
  simp [Sys.roots]

theorem Sys.root_mem (t : Sys) (h : (t.proc i).pagetable = r * PGSIZE) (hp : 0 < r * PGSIZE) :
    r ∈ t.roots :=
  t.mem_roots.2 ⟨i, by omega, by rw [h, page_div]⟩

/-- The virtual page number of a kernel stack. -/
def kstackV (i : Nat) : Nat := KSTACK i / PGSIZE

/-- What the kernel's own tables say: the page table `k` with its identity map and the kernel
stacks, the disk's rings, the open pipes and the argument buffers. -/
structure Static (L : Layout) (k : Nat) (disk : List Nat) (pipes : List Pipe) (argv : List Nat)
    (g : Ghost) : Prop where
  live : g.Live k
  leaf : ∀ v, g.pt k v ≠ 0 → ppn (g.pt k v) = v ∨ v = TFV + 1 ∧ ppn (g.pt k v) = L.trampoline / PGSIZE ∨
      ∃ i, i < NPROC ∧ v = kstackV i
  direct : ∀ v, L.etext / PGSIZE ≤ v → v < PHYSTOP / PGSIZE →
    g.pt k v = mkPte v (PTE_R ||| PTE_W ||| PTE_V)
  kstack : ∀ i, i < NPROC → ∃ x, g.pt k (kstackV i) = mkPte x (PTE_R ||| PTE_W ||| PTE_V) ∧
    g.own x = .held (.kstack i)
  nrings : disk.length = 3
  ring : ∀ i x, disk[i]? = some x → ∃ y, x = y * PGSIZE ∧ g.own y = .held (.ring i)
  pipe : ∀ q ∈ pipes, ∃ y, q.page = y * PGSIZE ∧ g.own y = .held .pipe
  distinct : (pipes.map Pipe.page).Nodup
  args : ∀ x ∈ argv, ∃ y, x = y * PGSIZE ∧ g.own y = .held .argbuf
  args_distinct : argv.Nodup

theorem Static.congr (h : Static L k disk pipes argv g) (hk : g'.Live k) (hp : g'.pt k = g.pt k)
    (hheld : ∀ x o, g.own x = .held o → o ≠ .fresh → (∀ i, o ≠ .trapframe i) → g'.own x = .held o) :
    Static L k disk pipes argv g' := by
  refine ⟨hk, by rw [hp]; exact h.leaf, by rw [hp]; exact h.direct, fun i hi => ?_,
    h.nrings, fun i x hx => ?_, fun q hq => ?_, h.distinct,
    fun x hx => ?_, h.args_distinct⟩
  · obtain ⟨x, hx, ho⟩ := h.kstack i hi
    exact ⟨x, by rw [hp, hx], hheld x _ ho (by simp) (by simp)⟩
  · obtain ⟨y, hy, ho⟩ := h.ring i x hx
    exact ⟨y, hy, hheld y _ ho (by simp) (by simp)⟩
  · obtain ⟨y, hy, ho⟩ := h.pipe q hq
    exact ⟨y, hy, hheld y _ ho (by simp) (by simp)⟩
  · obtain ⟨y, hy, ho⟩ := h.args x hx
    exact ⟨y, hy, hheld y _ ho (by simp) (by simp)⟩

theorem Static.bare (h : Static L k disk pipes argv g) (hb : Bare S R s s' g g') (hk : k ∉ R) :
    Static L k disk pipes argv g' :=
  h.congr ((hb.tables k k 2 0 hk).2 h.live) (hb.pt k hk) fun x o ho hf _ => (hb.held x o ho hf).1

/-- What one slot of the process table says about memory. -/
structure SlotInv (L : Layout) (g : Ghost) (i : Slot) (q : Proc) : Prop where
  trapframe : q.trapframe = 0 ∨
    ∃ x, q.trapframe = x * PGSIZE ∧ g.own x = .held (.trapframe i)
  pagetable : q.pagetable = 0 ∧ q.sz = 0 ∨
    ∃ r x, q.pagetable = r * PGSIZE ∧ 0 < r * PGSIZE ∧ Shape g r (npages q.sz) ∧ High L g r x ∧
      x < 2 ^ 44 ∧ 0 < x * PGSIZE ∧ (q.trapframe = 0 ∨ q.trapframe = x * PGSIZE)

/-- Which kernel data holds page `x`. -/
def Holds (t : Sys) (g : Ghost) (x : Nat) : Holder → Prop
  | .trapframe i => ∃ h : i < NPROC, (t.proc ⟨i, h⟩).trapframe = x * PGSIZE
  | .kstack i => i < NPROC ∧ ppn (g.pt (t.kernel_pagetable / PGSIZE) (kstackV i)) = x
  | .ring i => t.disk[i]? = some (x * PGSIZE)
  | .pipe => ∃ q ∈ t.pipes, q.page = x * PGSIZE
  | .argbuf => x * PGSIZE ∈ t.argv
  | .fresh => False

/-- The invariant that holds between the operations of the kernel. -/
structure SysInv (L : Layout) (t : Sys) (g : Ghost) : Prop where
  good : Good L t.mem g t.roots
  slot : ∀ i, SlotInv L g i (t.proc i)
  inj : ∀ i j, (t.proc i).pagetable = (t.proc j).pagetable → (t.proc i).pagetable ≠ 0 → i = j
  tables : ∀ x r l p, g.own x = .table r l p → r ∈ t.roots ∨ r = t.kernel_pagetable / PGSIZE
  kernel : t.kernel_pagetable / PGSIZE ∉ t.roots
  static : Static L (t.kernel_pagetable / PGSIZE) t.disk t.pipes t.argv g
  holder : ∀ x k, g.own x = .held k → Holds t g x k
  aligned : t.kernel_pagetable % PGSIZE = 0

/-- The fields of a process that the memory invariant reads. -/
def Proc.SameMem (q q' : Proc) : Prop :=
  q'.sz = q.sz ∧ q'.pagetable = q.pagetable ∧ q'.trapframe = q.trapframe

theorem Proc.SameMem.refl (q : Proc) : q.SameMem q := ⟨rfl, rfl, rfl⟩

theorem Proc.SameMem.trans {q q' q'' : Proc} (h : q.SameMem q') (h' : q'.SameMem q'') :
    q.SameMem q'' :=
  ⟨h'.1.trans h.1, h'.2.1.trans h.2.1, h'.2.2.trans h.2.2⟩

theorem SlotInv.sameMem (h : SlotInv L g i q) (hq : q.SameMem q') : SlotInv L g i q' := by
  obtain ⟨h1, h2, h3⟩ := hq
  constructor
  · rw [h3]
    exact h.trapframe
  · rw [h1, h2, h3]
    exact h.pagetable

structure Sys.SameStatic (t t' : Sys) : Prop where
  kernel : t'.kernel_pagetable = t.kernel_pagetable
  disk : t'.disk = t.disk
  pipes : t'.pipes = t.pipes
  argv : t'.argv = t.argv

theorem Sys.SameStatic.refl (t : Sys) : t.SameStatic t := ⟨rfl, rfl, rfl, rfl⟩

theorem Sys.SameStatic.trans {t t' t'' : Sys} (h : t.SameStatic t') (h' : t'.SameStatic t'') :
    t.SameStatic t'' :=
  ⟨h'.kernel.trans h.kernel, h'.disk.trans h.disk, h'.pipes.trans h.pipes, h'.argv.trans h.argv⟩

/-- Whether page `x` is held is read off the process table and the kernel's own data. -/
theorem Holds.congr {t t' : Sys} {k : Holder} (h : Holds t g x k) (hs : t.SameStatic t')
    (hk : g'.pt (t.kernel_pagetable / PGSIZE) = g.pt (t.kernel_pagetable / PGSIZE))
    (hp : ∀ i : Slot, k = .trapframe i → (t.proc i).trapframe = x * PGSIZE →
      (t'.proc i).trapframe = x * PGSIZE) : Holds t' g' x k := by
  cases k with
  | trapframe i =>
    obtain ⟨hi, hx⟩ := h
    exact ⟨hi, hp ⟨i, hi⟩ rfl hx⟩
  | kstack i =>
    show i < NPROC ∧ _
    rw [hs.kernel, hk]
    exact h
  | ring i =>
    show t'.disk[i]? = _
    rw [hs.disk]
    exact h
  | pipe =>
    show ∃ q ∈ t'.pipes, _
    rw [hs.pipes]
    exact h
  | argbuf =>
    show _ ∈ t'.argv
    rw [hs.argv]
    exact h
  | fresh => exact h

/-- The parts of the system state that the invariant reads are the same. -/
structure Sys.SameMem (t t' : Sys) : Prop where
  mem : t'.mem = t.mem
  proc : ∀ i, (t.proc i).SameMem (t'.proc i)
  static : t.SameStatic t'

theorem Sys.SameMem.refl (t : Sys) : t.SameMem t := ⟨rfl, fun _ => .refl _, .refl t⟩

theorem Sys.SameMem.trans {t t' t'' : Sys} (h : t.SameMem t') (h' : t'.SameMem t'') :
    t.SameMem t'' :=
  ⟨h'.mem.trans h.mem, fun i => (h.proc i).trans (h'.proc i), h.static.trans h'.static⟩

theorem Sys.SameMem.roots {t t' : Sys} (h : t.SameMem t') : t'.roots = t.roots := by
  ext r
  rw [t.mem_roots, t'.mem_roots]
  simp only [(h.proc _).2.1]

theorem SysInv.sameMem (h : SysInv L t g) (ht : t.SameMem t') : SysInv L t' g := by
  have hs := ht.static
  refine ⟨by rw [ht.roots, ht.mem]; exact h.good, fun i => (h.slot i).sameMem (ht.proc i), ?_, ?_, ?_,
    ?_, fun x k hk => (h.holder x k hk).congr hs rfl fun i _ hx => (ht.proc i).2.2.trans hx,
    by rw [hs.kernel]; exact h.aligned⟩
  · intro i j
    rw [(ht.proc i).2.1, (ht.proc j).2.1]
    exact h.inj i j
  · rw [ht.roots, hs.kernel]
    exact h.tables
  · rw [ht.roots, hs.kernel]
    exact h.kernel
  · rw [hs.kernel, hs.disk, hs.pipes, hs.argv]
    exact h.static

theorem SlotInv.congr (h : SlotInv L g i q)
    (hheld : ∀ x, g.own x = .held (.trapframe i) → g'.own x = .held (.trapframe i))
    (hpt : ∀ r, q.pagetable = r * PGSIZE → 0 < r * PGSIZE → g'.pt r = g.pt r) :
    SlotInv L g' i q := by
  refine ⟨?_, ?_⟩
  · rcases h.trapframe with h0 | ⟨x, hx, ho⟩
    · exact .inl h0
    · exact .inr ⟨x, hx, hheld x ho⟩
  · rcases h.pagetable with h0 | ⟨r, x, hr, hp, hs, hh, hrest⟩
    · exact .inl h0
    · have he := hpt r hr hp
      exact .inr ⟨r, x, hr, hp, hs.congr he, ⟨by rw [he, hh.trapframe], by rw [he, hh.trampoline]⟩,
        hrest⟩

/-- Only slot `p`, its page table and its trapframe have changed. -/
theorem SysInv.rebuild {t t' : Sys} (h : SysInv L t g) (p : Slot)
    (hgood : Good L t'.mem g' t'.roots) (hslot : SlotInv L g' p (t'.proc p))
    (hother : ∀ j, j ≠ p → (t.proc j).SameMem (t'.proc j))
    (hst : t.SameStatic t')
    (hpt : ∀ j, j ≠ p → ∀ r, (t.proc j).pagetable = r * PGSIZE → 0 < r * PGSIZE →
      g'.pt r = g.pt r)
    (hheld : ∀ x k, g.own x = .held k → k ≠ .trapframe p → g'.own x = .held k)
    (hholder : ∀ x k, g'.own x = .held k →
      g.own x = .held k ∧ k ≠ .trapframe p ∨ k = .trapframe p ∧ (t'.proc p).trapframe = x * PGSIZE)
    (hinj : ∀ j, j ≠ p → (t.proc j).pagetable ≠ 0 → (t'.proc p).pagetable ≠ (t.proc j).pagetable)
    (htables : ∀ x r l q, g'.own x = .table r l q →
      r ∈ t'.roots ∨ r = t.kernel_pagetable / PGSIZE)
    (hkernel : t.kernel_pagetable / PGSIZE ∉ t'.roots)
    (hlive : g'.Live (t.kernel_pagetable / PGSIZE))
    (hkpt : g'.pt (t.kernel_pagetable / PGSIZE) = g.pt (t.kernel_pagetable / PGSIZE)) :
    SysInv L t' g' := by
  refine ⟨hgood, fun i => ?_, fun i j he hne => ?_, by rw [hst.kernel]; exact htables,
    by rwa [hst.kernel], ?_, ?_, by rw [hst.kernel]; exact h.aligned⟩
  · by_cases hi : i = p
    · rw [hi]
      exact hslot
    · refine ((h.slot i).congr (fun x hx => hheld x _ hx ?_) (hpt i hi)).sameMem (hother i hi)
      intro he
      rw [Holder.trapframe.injEq] at he
      exact hi (Fin.ext he)
  · by_cases hi : i = p
    · by_cases hj : j = p
      · rw [hi, hj]
      · rw [hi] at he hne
        rw [(hother j hj).2.1] at he
        exact (hinj j hj (he ▸ hne) he).elim
    · by_cases hj : j = p
      · rw [hj, (hother i hi).2.1] at he
        rw [(hother i hi).2.1] at hne
        exact (hinj i hi hne he.symm).elim
      · rw [(hother i hi).2.1, (hother j hj).2.1] at he
        rw [(hother i hi).2.1] at hne
        exact h.inj i j he hne
  · rw [hst.kernel, hst.disk, hst.pipes, hst.argv]
    exact h.static.congr hlive hkpt fun x o ho _ hne => hheld x o ho (hne p)
  · intro x k hx
    rcases hholder x k hx with ⟨ho, hne⟩ | ⟨rfl, htf⟩
    · refine (h.holder x k ho).congr hst hkpt fun i hi hx => (hother i ?_).2.2.trans hx
      rintro rfl
      exact hne hi
    · exact ⟨p.2, htf⟩

end PbsCow

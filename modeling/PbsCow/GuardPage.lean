import PbsCow.SharedText

namespace PbsCow
set_option autoImplicit true

/-- Process `p` stores to a page of its own that is COW, and there is memory for a copy. -/
structure CowStore (t : Sys) (p : Slot) (va : Nat) : Prop where
  state : (t.proc p).state = .RUNNING
  killed : (t.proc p).killed = false
  valid : flag (t.mem.translate (t.proc p).pagetable va) PTE_V = true
  user : flag (t.mem.translate (t.proc p).pagetable va) PTE_U = true
  cow : flag (t.mem.translate (t.proc p).pagetable va) PTE_COW = true
  memory : t.mem.freelist ≠ 0

/-- `usertrap` returns to a process that it has not marked as killed. -/
def Survives (L : Layout) (t : Sys) (p : Slot) (regs : Regs) (va : Nat) : Prop :=
  ∃ t', usertrap L p regs (.storeFault va) t = .ok (.resume, t') ∧ (t'.proc p).killed = false

theorem CowStore.lt {t : Sys} {p : Slot} (h : CowStore t p va) (hg : SysInv L t g)
    (hp : (t.proc p).pagetable = r * PGSIZE) (hr : r ∈ t.roots) : va < MAXVA := by
  by_contra hva
  have hv := h.valid
  rw [hp, hg.good.translate hr, if_neg hva] at hv
  exact absurd hv (by decide)

/-- `cowalloc` copies the page. -/
theorem CowStore.copied {t : Sys} {p : Slot} (h : CowStore t p va) (hg : SysInv L t g)
    (hp : (t.proc p).pagetable = r * PGSIZE) (hr : r ∈ t.roots)
    (hc : CowPost L t.roots r (va / PGSIZE) t.mem g ret s') : ret = 0 := by
  have hva := h.lt hg hp hr
  have htr := hg.good.translate hr va
  rw [if_pos hva, ← hp] at htr
  rcases hc with ⟨_, _, hwhy⟩ | ⟨rfl, _⟩ | ⟨rfl, _⟩
  · rcases hwhy with hmax | h0 | ⟨_, hfree⟩
    · simp only [MAXVA_eq, MAXV, PGSIZE] at *
      omega
    · have hv := h.valid
      rw [htr, h0] at hv
      exact absurd hv (by decide)
    · exact (h.memory (hg.good.rep.page.freeRep.freelist_eq_zero.2 hfree)).elim
  · rfl
  · rfl

/-- The branch for store page faults kills the process exactly if the address is less than a page below
the saved stack pointer. -/
theorem CowStore.marked {t : Sys} {p : Slot} (h : CowStore t p va) (hi : Inv L t) (regs : Regs) :
    Wp (do uservec p regs; storePageFault L p va) NoError (fun _ t' => (t'.proc p).killed =
      decide (va < regs.sp.toNat ∧ subWord regs.sp.toNat PGSIZE ≤ va)) t := by
  have hne : (t.proc p).state ≠ .UNUSED := by
    rw [h.state]
    simp
  obtain ⟨g, hg⟩ := hi.sys
  obtain ⟨r, hr, hmem, hh⟩ := hg.highOk (hi.settled.used p hne).1
  have hva := h.lt hg hr hmem
  refine .bind (hi.uservec hne regs) ?_
  rintro _ t₁ ⟨h₁, hsp⟩
  have hg₁ := h₁.inv g hg
  have hr₁ : (t₁.proc p).pagetable = r * PGSIZE := by rw [h₁.proc, hr]
  have hroots : t₁.roots = t.roots := Sys.roots_congr fun i => by rw [h₁.proc]
  have hmem₁ : r ∈ t₁.roots := by rwa [hroots]
  have htr := h₁.translate hg hr hmem va
  have hfree : t₁.mem.freelist = 0 ↔ t.mem.freelist = 0 := by
    rw [hg₁.good.rep.page.freeRep.freelist_eq_zero, hg.good.rep.page.freeRep.freelist_eq_zero]
  have hs₁ : CowStore t₁ p va := by
    refine ⟨by rw [h₁.proc, h.state], by rw [h₁.proc, h.killed], ?_, ?_, ?_, fun h0 => ?_⟩
    · rw [htr, h.valid]
    · rw [htr, h.user]
    · rw [htr, h.cow]
    · exact h.memory (hfree.1 h0)
  refine (hg₁.storePageFault hr₁ hmem₁ hh (by rw [hsp])).mono ?_
  rintro _ t' ⟨ret, s', hc, rfl⟩
  rw [hs₁.copied hg₁ hr₁ hmem₁ hc, Sys.setProc_self, Proc.killIf]
  dsimp only
  rw [hs₁.killed, Bool.false_or, decide_eq_false (Int.lt_irrefl 0), Bool.or_false]
  have hlow : ¬ MAXVA ≤ va := Nat.not_le.2 hva
  simp only [GuardHit, hlow, false_or]

theorem usertrap_storeFault {t t₁ : Sys} {u : Unit}
    (h : (do uservec p regs; storePageFault L p va) t = .ok (u, t₁)) :
    usertrap L p regs (.storeFault va) t = exitIfKilled p (return .resume) t₁ := by
  simp only [bind, StateT.bind, Except.bind] at h
  simp only [usertrap, bind, StateT.bind, Except.bind]
  cases hv : uservec p regs t with
  | error e =>
    rw [hv] at h
    cases h
  | ok r =>
    rw [hv] at h
    simp only at h ⊢
    rw [h]

/-- A store to a COW page survives exactly if it does not hit the page-sized window below the saved
stack pointer, which `usertrap` takes for the guard page. -/
theorem cow_store_survives_iff {t : Sys} {p : Slot} (h : Reachable L t) (hs : CowStore t p va)
    (regs : Regs) : Survives L t p regs va ↔
      ¬ (va < regs.sp.toNat ∧ subWord regs.sp.toNat PGSIZE ≤ va) := by
  obtain ⟨u, t₁, he, hk⟩ := (hs.marked h.inv regs).exists_ok
  rw [Survives, usertrap_storeFault he]
  by_cases hw : va < regs.sp.toNat ∧ subWord regs.sp.toNat PGSIZE ≤ va
  · rw [decide_eq_true hw] at hk
    refine iff_of_false ?_ (not_not.2 hw)
    rintro ⟨t', ht', _⟩
    simp only [exitIfKilled, bind, StateT.bind, get, getThe, MonadStateOf.get, StateT.get, pure,
      Except.pure, Except.bind, hk, if_true] at ht'
    cases hx : exit p (-1) t₁ with
    | error e =>
      rw [hx] at ht'
      cases ht'
    | ok r =>
      rw [hx] at ht'
      injection ht' with ht'
      cases congrArg Prod.fst ht'
  · rw [decide_eq_false hw] at hk
    refine iff_of_true ⟨t₁, ?_, hk⟩ hw
    simp only [exitIfKilled, bind, StateT.bind, get, getThe, MonadStateOf.get, StateT.get, pure,
      Except.pure, Except.bind, hk]
    rfl

theorem cowPte_init (hx : x < 2 ^ 44) : cowPte (mkPte x initFlags) = mkPte x (cowFlags initFlags) := by
  rw [cowPte, ppn_mkPte hx (by decide), PTE_FLAGS_mkPte hx (by decide)]

/-- The trap in which the first process forks. -/
theorem Booted.forks {t : Sys} (h : Booted L t p .RUNNING g r x) (hq : (t.proc q).state = .UNUSED)
    (regs : Regs) :
    Wp (usertrap L p regs (.syscall .fork)) NoError (fun ret t' => ∃ np, ret = .child np ∧
      CowStore t' p 0) t := by
  have hne : (t.proc p).state ≠ .UNUSED := by
    rw [h.state]
    simp
  refine h.toInv.usertrap_syscall h.state h.killed (fun t₁ ht₁ => ?_) regs
  have h₁ := h.runsInit.touched ht₁
  have hlen := h.free
  rw [syscall]
  refine .bind (h₁.inv.fork h₁.settled (by rw [ht₁.proc]; exact hne)) ?_
  rintro (_ | np) t₂ hpost
  · rcases NotForked.reason hpost with hfull | hshort
    · exact (hfull q (by rw [ht₁.proc, hq])).elim
    · rw [h₁.sz, show npages PGSIZE = 1 from rfl] at hshort
      omega
  have hf : Forked L p np t₁ g t₂ := hpost
  have hpn : p ≠ np := by
    rintro rfl
    exact absurd hf.unused (by rw [h₁.state]; simp)
  have hproc := hf.others.proc p hpn
  have hi := hf.toInv h₁.settled
  refine wp_pure.2 ⟨by simp, hi, by rw [hproc, h₁.state], by rw [hproc, h₁.killed], fun t' ht' => ?_⟩
  have hp0 : (t₁.proc p).pagetable ≠ 0 := (h₁.settled.used p (by rw [h₁.state]; simp)).1
  have hold : t₁.mem.pte (t₁.proc p).pagetable (0 * PGSIZE) = mkPte x initFlags := by
    rw [h₁.root, h₁.inv.pte h₁.mem (by decide), h₁.pte]
  obtain ⟨he, _⟩ := hf.ptes 0 (by rw [h₁.sz]; decide)
  rw [hold, cowPte_init h₁.lt] at he
  have hpte : t'.mem.translate (t'.proc p).pagetable 0 = mkPte x (cowFlags initFlags) := by
    have hpar := ht'.pteAt hi.sys (p := p) (v := 0) (by rw [hproc]; exact hp0) (by decide)
    rw [Sys.pteAt, Sys.pteAt, hproc, he] at hpar
    exact hpar
  have hbit {i : Nat} (hi : i < 10) := getLsbD_mkPte x (cowFlags initFlags) hi
  obtain ⟨g', hg', huse⟩ := hf.inv
  refine ⟨np, rfl, by rw [ht'.proc, hproc, h₁.state], by rw [ht'.proc, hproc, h₁.killed], ?_, ?_, ?_,
    fun h0 => ?_⟩
  · rw [hpte, flag_V, hbit (by decide)]
    decide
  · rw [hpte, flag_U, hbit (by decide)]
    decide
  · rw [hpte, flag_COW, hbit (by decide)]
    decide
  · rw [(ht'.inv g' hg').good.rep.page.freeRep.freelist_eq_zero] at h0
    simp only [Uses, h₁.sz, h0, List.length_nil] at huse
    have hone : npages PGSIZE = 1 := rfl
    omega

/-- The first process has forked, so that its page is COW. -/
theorem run_fork (L : Layout) (ram : Nat → Page) :
    ∃ t p q, (do boot L; run L [.dispatch p, .trap p ⟨0, 0⟩ (.syscall .fork)]) (Sys.start ram) =
        .ok ([.done, .reply (.child q)], t) ∧ Reachable L t ∧ CowStore t p 0 := by
  obtain ⟨_, t, ht, p, g, r, x, hb⟩ := (boot_spec L ram).exists_ok
  obtain ⟨t₁, hrun₁, hb₁⟩ := hb.dispatch
  obtain ⟨i, hi, _⟩ := hb.exists_unused
  obtain ⟨_, t₂, hrun₂, q, rfl, hs⟩ := run_trap hb₁.state (hb₁.forks (hb₁.alone i hi) ⟨0, 0⟩)
  have hall : (do boot L; run L [.dispatch p, .trap p ⟨0, 0⟩ (.syscall .fork)]) (Sys.start ram) =
      .ok ([.done, .reply (.child q)], t₂) := by
    simp only [bind, StateT.bind, ht, Except.bind]
    exact run_append hrun₁ hrun₂
  exact ⟨t₂, p, q, hall, ⟨ram, _, _, hall⟩, hs⟩

/-- The page of the first process is the one below its stack pointer, which `userinit` has set. -/
theorem cow_store_below_sp_killed :
    ∃ t p q, (do boot imageLayout; run imageLayout [.dispatch p, .trap p ⟨0, 0⟩ (.syscall .fork)])
        (Sys.start fun _ _ => 0) = .ok ([.done, .reply (.child q)], t) ∧ CowStore t p 0 ∧
      Wp (do uservec p ⟨0, 4096⟩; storePageFault imageLayout p 0) NoError
        (fun _ t' => (t'.proc p).killed = true) t := by
  obtain ⟨t, p, q, ht, hreach, hs⟩ := run_fork imageLayout fun _ _ => 0
  refine ⟨t, p, q, ht, hs, (hs.marked hreach.inv ⟨0, 4096⟩).mono fun _ t' hk => ?_⟩
  rw [hk, decide_eq_true_iff, subWord]
  decide

theorem cow_store_survives_iff_forked :
    ∃ t p, Reachable imageLayout t ∧ CowStore t p 0 ∧ (Survives imageLayout t p ⟨0, 8192⟩ 0 ↔
      ¬ (0 < (8192 : Word).toNat ∧ subWord (8192 : Word).toNat PGSIZE ≤ 0)) := by
  obtain ⟨t, p, q, ht, hreach, hs⟩ := run_fork imageLayout fun _ _ => 0
  exact ⟨t, p, hreach, hs, cow_store_survives_iff hreach hs ⟨0, 8192⟩⟩

end PbsCow

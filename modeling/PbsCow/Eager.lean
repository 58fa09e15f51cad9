import PbsCow.Quiet

namespace PbsCow
set_option autoImplicit true

/-- The memory of a process on a machine whose `fork` copies every page at once. -/
structure UserMem where
  sz : Nat
  pages : Nat → Option UPage

/-- The page of address `va`, if user code has permission `f` for it. -/
def UserMem.access (m : UserMem) (f : Word) (va : Nat) : Option UPage :=
  (m.pages (va / PGSIZE)).filter fun pg => flag pg.flags PTE_U && flag pg.flags f

def UserMem.load (m : UserMem) (va : Nat) : Option Byte :=
  (m.access PTE_R va).map fun pg => pg.data.byte (va % PGSIZE)

def UserMem.store (m : UserMem) (va : Nat) (b : Byte) : Option UserMem :=
  (m.access PTE_W va).map fun pg => { m with
    pages := Function.update m.pages (va / PGSIZE)
      (some { pg with data := pg.data.setByte (va % PGSIZE) b }) }

def UserMem.sbrk (m : UserMem) (n : Int) : UserMem where
  sz := sbrkSize m.sz n
  pages := resizePages (npages m.sz) (npages (sbrkSize m.sz n)) m.pages

/-- A machine in which every process has a memory of its own. -/
abbrev Eager := Slot → UserMem

/-- What a trap does to the memories; the kernel has chosen the child's slot, and has decided
whether there is memory for `sbrk`. -/
def Eager.trap (e : Eager) (p : Slot) : Cause → Reply → Eager
  | .syscall .fork, .child np => Function.update e np (e p)
  | .syscall (.sbrk n), .value v =>
    if v = -1 then e else Function.update e p ((e p).sbrk n.toInt)
  | _, _ => e

/-- One step, with what it shows to user code. From the kernel's own answer `out` it takes which
processes run, which are killed, and what the system calls return. -/
def Eager.step (e : Eager) (op : Op) (out : Out) : Out × Eager :=
  match op, out with
  | _, .skipped => (.skipped, e)
  | .load p _ va, _ =>
    match (e p).load va with
    | some b => (.loaded b, e)
    | none => (.killed, e)
  | .store _ _ _ _, .killed => (.killed, e)
  | .store p _ va b, _ =>
    match (e p).store va b with
    | some m => (.stored, Function.update e p m)
    | none => (.faulted, e)
  | .trap p _ cause, .reply r => (.reply r, e.trap p cause r)
  | _, out => (out, e)

def Eager.run (e : Eager) : List (Op × Out) → List Out
  | [] => []
  | (op, out) :: rest => (e.step op out).1 :: (e.step op out).2.run rest

/-- The memories that the processes of the kernel see. -/
def Sys.view (t : Sys) : Eager := fun i => ⟨(t.proc i).sz, t.pages i⟩

/-- The simulation relation: the processes that there are see the memories of `e`. -/
def Shows (t : Sys) (e : Eager) : Prop := ∀ i, (t.proc i).state ≠ .UNUSED → t.view i = e i

theorem Shows.view (t : Sys) : Shows t t.view := fun _ _ => rfl

theorem SameView.shows {t t' : Sys} {e : Eager} (h : SameView t t') (he : Shows t e) : Shows t' e := by
  intro i hi
  obtain ⟨h1, h2, h3⟩ := h i hi
  rw [← he i h1, Sys.view, Sys.view, h2, h3]

/-- Only the memory of slot `p` has changed. -/
theorem Shows.update {t t' : Sys} {e : Eager} {p : Slot} (he : Shows t e)
    (hp : (t'.proc p).state ≠ .UNUSED → t'.view p = m)
    (ho : ∀ j, j ≠ p → (t'.proc j).state ≠ .UNUSED →
      (t.proc j).state ≠ .UNUSED ∧ t'.view j = t.view j) : Shows t' (Function.update e p m) := by
  intro j hj
  by_cases hjp : j = p
  · subst hjp
    rw [Function.update_self]
    exact hp hj
  · obtain ⟨h1, h2⟩ := ho j hjp hj
    rw [Function.update_of_ne hjp, h2]
    exact he j h1

theorem Others.view_eq {t t' : Sys} {A : Slot → Prop} (h : Others A t t') (hs : Settled t)
    (hj : ¬ A j) (hj' : (t'.proc j).state ≠ .UNUSED) :
    (t.proc j).state ≠ .UNUSED ∧ t'.view j = t.view j := by
  have hp := h.proc j hj
  rw [hp] at hj'
  refine ⟨hj', ?_⟩
  rw [Sys.view, Sys.view, hp, h.pages j hj (hs.used j hj').1]

/-- User code reaches memory through the pages of its view only. -/
theorem SysInv.translate {t : Sys} {p : Slot} (h : SysInv L t g)
    (hp : (t.proc p).pagetable = r * PGSIZE) (hr : r ∈ t.roots) (hh : HighOk g r) (va : Nat) :
    (va / PGSIZE < TFV ∧ g.pt r (va / PGSIZE) ≠ 0 ∧
      t.mem.translate (t.proc p).pagetable va = g.pt r (va / PGSIZE) ∧
      t.pages p (va / PGSIZE) = some ⟨eagerFlags (PTE_FLAGS (g.pt r (va / PGSIZE))),
        t.mem.ram (ppn (g.pt r (va / PGSIZE)))⟩) ∨
    (¬ Accessible (t.mem.translate (t.proc p).pagetable va) ∧ t.pages p (va / PGSIZE) = none) := by
  rw [Sys.pages, hp, h.good.translate hr]
  by_cases hv : va / PGSIZE < TFV
  · have hva : va < MAXVA := by
      simp only [PGSIZE, TFV, MAXVA_eq] at *
      omega
    rw [if_pos hva]
    by_cases h0 : g.pt r (va / PGSIZE) = 0
    · exact .inr ⟨fun ha => ha.ne_zero h0, h.good.pages_none hr fun _ => h0⟩
    · exact .inl ⟨hv, h0, rfl, h.good.pages_some hr hv h0⟩
  · refine .inr ⟨?_, h.good.pages_high hr (by omega)⟩
    split
    · next hva =>
      intro ha
      have hu := (hh _ (by omega) (by simp only [PGSIZE, MAXV, MAXVA_eq] at *; omega) ha.ne_zero).2.1
      rw [Accessible, flag_U, hu] at ha
      cases ha.2
    · exact fun ha => ha.ne_zero rfl

theorem eagerFlags_bit (f : Word) (hi : i < 64) (h2 : i ≠ 2) (h8 : i ≠ 8) :
    (eagerFlags f).getLsbD i = f.getLsbD i := by
  cases hc : f.getLsbD 8 with
  | false => rw [eagerFlags_of_not_COW hc]
  | true =>
    rw [eagerFlags_of_COW hc, getLsbD_uncowFlags f hi, bne_iff_ne.2 h8, beq_false_of_ne h2,
      Bool.and_true, Bool.or_false]

theorem SysInv.highOk {t : Sys} {p : Slot} (h : SysInv L t g) (hp : (t.proc p).pagetable ≠ 0) :
    ∃ r, (t.proc p).pagetable = r * PGSIZE ∧ r ∈ t.roots ∧ HighOk g r := by
  obtain ⟨r, x, hr, hmem, _, hh, hx, hx', _⟩ := h.space hp
  exact ⟨r, hr, hmem, hh.highOk hx hx'⟩

/-- A load in user mode reads the process's view of its memory. -/
theorem SysInv.userLoad {t : Sys} {p : Slot} (h : SysInv L t g) (hp : (t.proc p).pagetable ≠ 0)
    (va : Nat) : t.mem.userLoad (t.proc p).pagetable va = (t.view p).load va := by
  obtain ⟨r, hr, hmem, hh⟩ := h.highOk hp
  rw [Mem.userLoad, UserMem.load, UserMem.access, Sys.view]
  rcases h.translate hr hmem hh va with ⟨hv, hne, he, hpg⟩ | ⟨hna, hpg⟩
  · have hleaf := h.good.space.leaf r hmem _ hv hne
    have hU : flag (eagerFlags (PTE_FLAGS (g.pt r (va / PGSIZE)))) PTE_U =
        flag (g.pt r (va / PGSIZE)) PTE_U := by
      rw [flag_U, flag_U, eagerFlags_bit _ (by decide) (by decide) (by decide),
        getLsbD_PTE_FLAGS _ (by decide)]
    have hR : flag (eagerFlags (PTE_FLAGS (g.pt r (va / PGSIZE)))) PTE_R =
        flag (g.pt r (va / PGSIZE)) PTE_R := by
      rw [flag_R, flag_R, eagerFlags_bit _ (by decide) (by decide) (by decide),
        getLsbD_PTE_FLAGS _ (by decide)]
    simp only [hpg, he, hleaf.flag_V, Bool.true_and, Option.filter, hU, hR]
    split <;> rfl
  · have hna' : (flag (t.mem.translate (t.proc p).pagetable va) PTE_V &&
        flag (t.mem.translate (t.proc p).pagetable va) PTE_U) = false := by
      rw [Bool.and_eq_false_iff]
      by_contra hc
      rw [not_or, Bool.not_eq_false, Bool.not_eq_false] at hc
      exact hna hc
    simp only [hpg, hna', Bool.false_and]
    rfl

/-- A write to a user page is seen in that page only. -/
theorem Good.pages_write (h : Good L s g S) (hr : r ∈ S) (hv : v < TFV) (hne : g.pt r v ≠ 0) :
    (s.setPage (ppn (g.pt r v)) z).pages (r * PGSIZE) =
      Function.update (s.pages (r * PGSIZE)) v (some ⟨eagerFlags (PTE_FLAGS (g.pt r v)), z⟩) := by
  have h' : Good L (s.setPage (ppn (g.pt r v)) z) g S :=
    h.setPage (.inl (h.space.target r hr v hv hne))
  funext w
  by_cases hwv : w = v
  · subst hwv
    rw [Function.update_self, h'.pages_some hr hv hne]
    simp [Mem.setPage]
  · rw [Function.update_of_ne hwv]
    by_cases hw : w < TFV
    · by_cases hm : g.pt r w = 0
      · rw [h.pages_none hr fun _ => hm, h'.pages_none hr fun _ => hm]
      · have hpp : ppn (g.pt r w) ≠ ppn (g.pt r v) := fun he =>
          hwv (h.space.inj r hr v w hv hw hne ⟨hm, he⟩)
        rw [h.pages_some hr hw hm, h'.pages_some hr hw hm]
        simp [Mem.setPage, hpp]
    · rw [h.pages_high hr (by omega), h'.pages_high hr (by omega)]

/-- A writable page is mapped once, so that writing to it is invisible elsewhere. -/
theorem Good.sameSpace_write (h : Good L s g S) (hr : r ∈ S) (hv : v < TFV)
    (hw : (g.pt r v).getLsbD 2 = true) (hr' : r' ∈ S) (hrr : r' ≠ r) :
    SameSpace r' s (s.setPage (ppn (g.pt r v)) pg) g g := by
  refine ⟨rfl, fun w hw' hm => Function.update_of_ne ?_ _ _⟩
  intro he
  exact hrr (h.space.excl r hr v hv hw r' hr' w hw' ⟨hm, he⟩).1

/-- A store that does not fault is the store of a machine without sharing. -/
theorem SysInv.userStore_some {t : Sys} {p : Slot} (h : SysInv L t g)
    (hp : (t.proc p).pagetable ≠ 0) (hs : t.mem.userStore (t.proc p).pagetable va b = some m) :
    SysInv L { t with mem := m } g ∧ Others (· = p) t { t with mem := m } ∧
      (t.view p).store va b = some (({ t with mem := m } : Sys).view p) := by
  obtain ⟨r, hr, hmem, hh⟩ := h.highOk hp
  rw [Mem.userStore] at hs
  rcases h.translate hr hmem hh va with ⟨hv, hne, he, hpg⟩ | ⟨hna, _⟩
  · simp only [he] at hs
    split at hs
    · next hc =>
      obtain ⟨hVU, hW⟩ := Bool.and_eq_true_iff.1 hc
      rw [flag_W] at hW
      have hleaf := h.good.space.leaf r hmem _ hv hne
      have hcow : (PTE_FLAGS (g.pt r (va / PGSIZE))).getLsbD 8 = false :=
        hleaf.flags.exclusive (by rwa [getLsbD_PTE_FLAGS _ (by decide)])
      obtain rfl := Option.some.inj hs
      have h' := h.setPage (w := (t.mem.ram (ppn (g.pt r (va / PGSIZE)))).setByte (va % PGSIZE) b)
        (.inl (h.good.space.target r hmem _ hv hne))
      refine ⟨h', h.memStep_others h' hr hmem fun r' hr' hrr =>
        h.good.sameSpace_write hmem hv hW hr' hrr, ?_⟩
      have hflags : (flag (eagerFlags (PTE_FLAGS (g.pt r (va / PGSIZE)))) PTE_U &&
          flag (eagerFlags (PTE_FLAGS (g.pt r (va / PGSIZE)))) PTE_W) = true := by
        rw [eagerFlags_of_not_COW hcow, flag_U, flag_W, getLsbD_PTE_FLAGS _ (by decide),
          getLsbD_PTE_FLAGS _ (by decide), hW, ← flag_U, (Bool.and_eq_true_iff.1 hVU).2]
        rfl
      simp only [UserMem.store, UserMem.access, Sys.view, hpg, Option.filter, hflags, if_true,
        Option.map_some]
      have hpages := h.good.pages_write (z := (t.mem.ram (ppn (g.pt r (va / PGSIZE)))).setByte
        (va % PGSIZE) b) hmem hv hne
      rw [Sys.pages, hr, ← hpages, Sys.pages, ← hr]
    · cases hs
  · split at hs
    · next hc =>
      obtain ⟨hVU, _⟩ := Bool.and_eq_true_iff.1 hc
      exact (hna (Bool.and_eq_true_iff.1 hVU)).elim
    · cases hs

/-- A store that faults on a page that is not COW would fault without sharing, too. -/
theorem SysInv.userStore_none {t : Sys} {p : Slot} (h : SysInv L t g)
    (hp : (t.proc p).pagetable ≠ 0) (hs : t.mem.userStore (t.proc p).pagetable va b = none)
    (hc : flag (t.mem.translate (t.proc p).pagetable va) PTE_COW = false) :
    (t.view p).store va b = none := by
  obtain ⟨r, hr, hmem, hh⟩ := h.highOk hp
  rw [Mem.userStore] at hs
  rw [UserMem.store, UserMem.access, Sys.view]
  rcases h.translate hr hmem hh va with ⟨hv, hne, he, hpg⟩ | ⟨_, hpg⟩
  · rw [he, flag_COW] at hc
    have hleaf := h.good.space.leaf r hmem _ hv hne
    simp only [he, hleaf.flag_V, Bool.true_and] at hs
    split at hs
    · cases hs
    · next hn =>
      rw [Bool.not_eq_true] at hn
      have hflags : (flag (eagerFlags (PTE_FLAGS (g.pt r (va / PGSIZE)))) PTE_U &&
          flag (eagerFlags (PTE_FLAGS (g.pt r (va / PGSIZE)))) PTE_W) = false := by
        rw [eagerFlags_of_not_COW (by rwa [getLsbD_PTE_FLAGS _ (by decide)]), flag_U, flag_W,
          getLsbD_PTE_FLAGS _ (by decide), getLsbD_PTE_FLAGS _ (by decide), ← flag_U, ← flag_W, hn]
      simp only [hpg, Option.filter, hflags]
      rfl
  · simp only [hpg]
    rfl

end PbsCow

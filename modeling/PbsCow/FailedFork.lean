import PbsCow.Accounting
import PbsCow.CowallocContract

namespace PbsCow
set_option autoImplicit true

/-- The references to the pages that the page tables in `t.roots` map have not changed. -/
theorem Undone.mappers {t t' : Sys} (h : Undone t t' g g') (hi : SysInv L t g) (x : Nat) :
    mappers g' t.roots x = mappers g t.roots x := by
  refine mappers_congr fun r hr v hv => ?_
  rcases h.pt r hr v with he | ⟨_, hne, he⟩
  · rw [he]
  · have hleaf := hi.good.space.leaf r hr v hv hne
    have hlt := hi.good.ppn_lt hr hv hne
    rw [he, Maps, Maps, hleaf.ppn_cow hlt]
    exact and_congr_left fun _ => iff_of_true (hleaf.flags.cow.mkPte_ne_zero _) hne

open Classical in
theorem Undone.tableOwners {t t' : Sys} (h : Undone t t' g g') (hi : SysInv L t g) (hi' : SysInv L t' g')
    (hroots : t'.roots = t.roots) (x : Nat) : t'.tableOwners x = t.tableOwners x := by
  rw [hi'.tableOwners, hi.tableOwners]
  refine if_congr ⟨?_, ?_⟩ rfl rfl
  · rintro ⟨r, l, p, ho⟩
    have hr := hi'.tables x r l p ho
    rw [hroots, h.static.kernel] at hr
    exact ⟨r, l, p, (h.tables r hr x l p).1 ho⟩
  · rintro ⟨r, l, p, ho⟩
    exact ⟨r, l, p, (h.tables r (hi.tables x r l p ho) x l p).2 ho⟩

theorem Undone.kstackOwners {t t' : Sys} (h : Undone t t' g g') (hi : SysInv L t g) (hi' : SysInv L t' g')
    (x : Nat) : t'.kstackOwners x = t.kstackOwners x := by
  have hpte (i : Slot) :
      t'.mem.pte t'.kernel_pagetable (KSTACK i) = t.mem.pte t.kernel_pagetable (KSTACK i) := by
    obtain ⟨hK, hV⟩ := KSTACK_eq i.2
    have hmax : kstackV i < MAXV := by
      rw [hV]
      simp only [MAXV]
      omega
    rw [hi'.kernel_root, hi.kernel_root, hK, h.static.kernel, hi.good.rep.pte_page hi.static.live hmax,
      hi'.good.rep.pte_page (h.static.kernel ▸ hi'.static.live) hmax, h.kernel]
  simp only [Sys.kstackOwners, hpte]

/-- Every page has as many references as before. -/
theorem Undone.count {t t' : Sys} (h : Undone t t' g g') (hi : SysInv L t g) (hi' : SysInv L t' g')
    (hpt : ∀ i, (t'.proc i).pagetable = (t.proc i).pagetable)
    (htf : ∀ i, (t'.proc i).trapframe = (t.proc i).trapframe) (hx : L.Managed x) :
    t'.mem.count x = t.mem.count x := by
  have hroots : t'.roots = t.roots := Sys.roots_congr hpt
  obtain ⟨_, _, hacc⟩ := hi.accounted
  obtain ⟨_, _, hacc'⟩ := hi'.accounted
  have huser : t'.userPtes x = t.userPtes x := by
    rw [hi'.userPtes, hi.userPtes, hroots, h.mappers hi]
  have htfs : t'.trapframeOwners x = t.trapframeOwners x := by simp only [Sys.trapframeOwners, htf]
  rw [(hacc' x hx).1, (hacc x hx).1, huser, Sys.kernelOwners, Sys.kernelOwners,
    h.tableOwners hi hi' hroots, htfs, h.kstackOwners hi hi', h.static.disk, h.static.pipes, h.static.argv]

/-- The pages that are not handed out are never free. -/
theorem SysInv.free_iff {t : Sys} (h : SysInv L t g) (x : Nat) :
    t.mem.Free x ↔ L.Managed x ∧ t.mem.count x = 0 := by
  by_cases hx : L.Managed x
  · rw [h.good.rep.free_iff ((h.good.rep.page.managed x).2 hx)]
    exact (and_iff_right hx).symm
  · refine iff_of_false ?_ fun hc => hx hc.1
    rintro ⟨l, hl, hl0, hm⟩
    have hzero : 0 ∉ g.free := fun hm => absurd (h.good.rep.page.freeRep.managed 0 hm).pos (by decide)
    rw [hl.unique h.good.rep.page.freeRep.chain hl0 hzero] at hm
    exact hx (h.good.rep.page.freeRep.managed x hm)

/-- User code of a process with this PTE may store to the page. -/
def Storable (e : Word) : Prop := Accessible e ∧ flag e PTE_W = true

/-- A store to the page succeeds, at once or after a copy has been made. -/
def StorableOrCow (e : Word) : Prop := Accessible e ∧ (flag e PTE_W = true ∨ flag e PTE_COW = true)

theorem Storable.cow (h : Storable e) : StorableOrCow (cowPte e) := by
  obtain ⟨⟨hv, hu⟩, hw⟩ := h
  rw [flag_V] at hv
  rw [flag_U] at hu
  rw [flag_W] at hw
  refine ⟨⟨?_, ?_⟩, .inr ?_⟩
  · rw [flag_V, cowPte, getLsbD_mkPte _ _ (by decide), getLsbD_cowFlags _ (by decide) (by decide),
      getLsbD_PTE_FLAGS _ (by decide), hv]
  · rw [flag_U, cowPte, getLsbD_mkPte _ _ (by decide), getLsbD_cowFlags _ (by decide) (by decide),
      getLsbD_PTE_FLAGS _ (by decide), hu]
  · rw [flag_COW, cowPte, getLsbD_mkPte _ _ (by decide), cowFlags_COW, getLsbD_PTE_FLAGS _ (by decide),
      getLsbD_PTE_FLAGS _ (by decide), hw, Bool.true_or]

/-- What a failed `fork` by `p` leaves behind. -/
structure NoTrace (L : Layout) (p : Slot) (t t' : Sys) : Prop where
  others : ∀ j, (t.proc j).state ≠ .UNUSED → t'.proc j = t.proc j
  unused : ∀ j, (t.proc j).state = .UNUSED → Unused (t'.proc j)
  free : ∀ x, t'.mem.Free x ↔ t.mem.Free x
  count : ∀ x, L.Managed x → t'.mem.count x = t.mem.count x
  load : ∀ a, t'.mem.userLoad (t'.proc p).pagetable a = t.mem.userLoad (t.proc p).pagetable a
  store : ∀ a, Storable (t.mem.translate (t.proc p).pagetable a) →
    StorableOrCow (t'.mem.translate (t'.proc p).pagetable a)

theorem NotForked.noTrace {t t' : Sys} {p : Slot} (h : NotForked L p t g t') (hi : SysInv L t g)
    (hs : Settled t) (hp : (t.proc p).state ≠ .UNUSED) : NoTrace L p t t' := by
  obtain ⟨hinv', hview, hproc⟩ := h.keeps hs
  obtain ⟨⟨g', hi', hund⟩, _, hu, _⟩ := h
  have hfields (i : Slot) : (t'.proc i).pagetable = (t.proc i).pagetable ∧
      (t'.proc i).trapframe = (t.proc i).trapframe := by
    by_cases hc : (t.proc i).state = .UNUSED
    · have h1 := hu i hc
      have h2 := hs.unused i hc
      exact ⟨h1.pagetable.trans h2.pagetable.symm, h1.trapframe.trans h2.trapframe.symm⟩
    · rw [hproc i hc]
      exact ⟨rfl, rfl⟩
  have hcount {x : Nat} (hx : L.Managed x) : t'.mem.count x = t.mem.count x :=
    hund.count hi hi' (fun i => (hfields i).1) (fun i => (hfields i).2) hx
  have hp' : (t'.proc p).state ≠ .UNUSED := by rwa [hproc p hp]
  refine ⟨hproc, hu, fun x => ?_, fun x hx => hcount hx, fun a => ?_, fun a ha => ?_⟩
  · rw [hi'.free_iff, hi.free_iff]
    exact and_congr_right fun hx => by rw [hcount hx]
  · have hv := hview p hp'
    rw [hinv'.userLoad hp', (Inv.mk hs ⟨g, hi⟩).userLoad hp, Sys.view, Sys.view, hv.2.1, hv.2.2]
  · obtain ⟨r, _, hr, hmem, _⟩ := hi.space (hs.used p hp).1
    have hmem' : r ∈ t'.roots := by
      rwa [Sys.roots_congr fun i => (hfields i).1]
    rw [hr, hi.good.translate hmem] at ha
    rw [(hfields p).1, hr, hi'.good.translate hmem']
    by_cases hmax : a < MAXVA
    · rw [if_pos hmax] at ha ⊢
      rcases hund.pt r hmem (a / PGSIZE) with he | ⟨_, _, he⟩
      · rw [he]
        exact ⟨ha.1, .inl ha.2⟩
      · rw [he]
        exact ha.cow
    · rw [if_neg hmax] at ha
      exact absurd ha.1.1 (by decide)

/-- A `fork` that returns -1 leaves no trace, wherever memory or the table ran out. -/
theorem fork_failed {t : Sys} {p : Slot} (h : Reachable L t) (hp : (t.proc p).state ≠ .UNUSED) :
    Wp (fork L p) NoError (fun ret t' => ret = none → NoTrace L p t t') t := by
  have hi := h.inv
  obtain ⟨g, hg⟩ := hi.sys
  refine (hg.fork hi.settled hp).mono ?_
  rintro ret t' hpost rfl
  exact NotForked.noTrace hpost hg hi.settled hp

theorem fork_failed_booted : ∃ t p, Reachable imageLayout t ∧ (t.proc p).state = .RUNNING ∧
    Wp (fork imageLayout p) NoError (fun ret t' => ret = none → NoTrace imageLayout p t t') t := by
  obtain ⟨t, p, g, r, x, _, hreach, hb⟩ := Reachable.init imageLayout fun _ _ => 0
  exact ⟨t, p, hreach, hb.state, fork_failed hreach (by rw [hb.state]; simp)⟩

end PbsCow

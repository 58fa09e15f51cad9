import PbsCow.SysInv

namespace PbsCow
set_option autoImplicit true

theorem Sys.roots_congr {t t' : Sys} (h : ∀ i, (t'.proc i).pagetable = (t.proc i).pagetable) :
    t'.roots = t.roots := by
  ext r
  simp only [t.mem_roots, t'.mem_roots, h]

@[simp] theorem Sys.setProc_self (t : Sys) : (t.setProc i f).proc i = f (t.proc i) :=
  Function.update_self _ _ _

theorem Sys.setProc_of_ne (t : Sys) (h : j ≠ i) : (t.setProc i f).proc j = t.proc j :=
  Function.update_of_ne h _ _

@[simp] theorem Sys.setProc_mem (t : Sys) : (t.setProc i f).mem = t.mem := rfl

theorem Sys.setProc_sameMem (t : Sys) (h : (t.proc i).SameMem (f (t.proc i))) :
    t.SameMem (t.setProc i f) := by
  refine ⟨rfl, fun j => ?_, ⟨rfl, rfl, rfl, rfl⟩⟩
  by_cases hj : j = i
  · subst hj
    rwa [t.setProc_self]
  · rw [t.setProc_of_ne hj]
    exact .refl _

/-- The address space of a slot that has one. -/
theorem SysInv.space (h : SysInv L t g) (hp : (t.proc p).pagetable ≠ 0) :
    ∃ r x, (t.proc p).pagetable = r * PGSIZE ∧ r ∈ t.roots ∧ Shape g r (npages (t.proc p).sz) ∧
      High L g r x ∧ x < 2 ^ 44 ∧ 0 < x * PGSIZE ∧
      ((t.proc p).trapframe = 0 ∨ (t.proc p).trapframe = x * PGSIZE) := by
  rcases (h.slot p).pagetable with h0 | ⟨r, x, hr, hpos, hs, hh, hx, hx', ht⟩
  · exact (hp h0.1).elim
  · exact ⟨r, x, hr, t.root_mem hr hpos, hs, hh, hx, hx', ht⟩

theorem SysInv.root_ne (h : SysInv L t g) (hp : (t.proc p).pagetable = r * PGSIZE)
    (hr : 0 < r * PGSIZE) (hq : (t.proc q).pagetable = r' * PGSIZE) (hpq : q ≠ p) : r' ≠ r := by
  rintro rfl
  exact hpq (h.inj q p (hq.trans hp.symm) (by omega))

theorem SysInv.root_ne_kernel (h : SysInv L t g) (hp : (t.proc p).pagetable = r * PGSIZE)
    (hr : 0 < r * PGSIZE) : t.kernel_pagetable / PGSIZE ≠ r := by
  intro he
  exact h.kernel (he ▸ t.root_mem hp hr)

/-- The address spaces in `R` have changed, possibly in size; page tables and trapframes stay where
they are. -/
theorem SysInv.remap {t t' : Sys} (h : SysInv L t g) (hg : Good L t'.mem g' t.roots)
    (hb : Bare t.roots R t.mem t'.mem g g') (hR : R ⊆ t.roots)
    (hproc : ∀ j, (t'.proc j).pagetable = (t.proc j).pagetable ∧
      (t'.proc j).trapframe = (t.proc j).trapframe)
    (hsz : ∀ j, (t.proc j).pagetable / PGSIZE ∉ R → (t'.proc j).sz = (t.proc j).sz)
    (hs : ∀ j r, (t.proc j).pagetable = r * PGSIZE → r ∈ R →
      Shape g' r (npages (t'.proc j).sz) ∧ ∀ v, TFV ≤ v → g'.pt r v = g.pt r v)
    (hst : t.SameStatic t') : SysInv L t' g' := by
  have hroots : t'.roots = t.roots := Sys.roots_congr fun j => (hproc j).1
  have hkR : t.kernel_pagetable / PGSIZE ∉ R := fun hm => h.kernel (hR hm)
  have hzero : 0 ∉ R := fun hm => by
    have hl := h.good.space.live 0 (hR hm)
    exact absurd (h.good.rep.page.pos (by rw [hl]; simp)) (by simp)
  have hown {x : Nat} {k : Holder} (hk : g.own x = .held k) : g'.own x = .held k := by
    refine (hb.held x k hk ?_).1
    rintro rfl
    exact h.holder x _ hk
  refine ⟨by rwa [hroots], fun i => ⟨?_, ?_⟩, fun i j => ?_, fun x r l q hq => ?_, ?_, ?_, ?_,
    by rw [hst.kernel]; exact h.aligned⟩
  · rw [(hproc i).2]
    rcases (h.slot i).trapframe with h0 | ⟨x, hx, ho⟩
    · exact .inl h0
    · exact .inr ⟨x, hx, hown ho⟩
  · rw [(hproc i).1, (hproc i).2]
    rcases (h.slot i).pagetable with ⟨h0, h1⟩ | ⟨r, x, hr, hpos, hsh, hh, hrest⟩
    · refine .inl ⟨h0, (hsz i ?_).trans h1⟩
      rwa [h0]
    · refine .inr ⟨r, x, hr, hpos, ?_⟩
      by_cases hm : r ∈ R
      · obtain ⟨hsh', hv⟩ := hs i r hr hm
        exact ⟨hsh', ⟨by rw [hv _ (Nat.le_refl _), hh.trapframe],
          by rw [hv _ (Nat.le_succ _), hh.trampoline]⟩, hrest⟩
      · have he := hb.pt r hm
        rw [hsz i (by rwa [hr, page_div])]
        exact ⟨hsh.congr he, ⟨by rw [he, hh.trapframe], by rw [he, hh.trampoline]⟩, hrest⟩
  · rw [(hproc i).1, (hproc j).1]
    exact h.inj i j
  · rw [hroots, hst.kernel]
    by_cases hm : r ∈ R
    · exact .inl (hR hm)
    · exact h.tables x r l q ((hb.tables x r l q hm).1 hq)
  · rw [hroots, hst.kernel]
    exact h.kernel
  · rw [hst.kernel, hst.disk, hst.pipes, hst.argv]
    exact h.static.bare hb hkR
  · intro x k hx
    exact (h.holder x k (hb.holder x k hx)).congr hst (hb.pt _ hkR) fun i _ hx =>
      (hproc i).2.trans hx

/-- Slot `p` has given its page table a new size; nothing else has moved. -/
theorem SysInv.resize {t : Sys} {f : Proc → Proc} (h : SysInv L t g)
    (hp : (t.proc p).pagetable = r * PGSIZE) (hr : r ∈ t.roots) (hg : Good L s' g' t.roots)
    (hb : Bare t.roots {r} t.mem s' g g') (hs : Shape g' r (npages (f (t.proc p)).sz))
    (hhigh : ∀ v, TFV ≤ v → g'.pt r v = g.pt r v)
    (hpt : (f (t.proc p)).pagetable = (t.proc p).pagetable)
    (htf : (f (t.proc p)).trapframe = (t.proc p).trapframe) :
    SysInv L (({ t with mem := s' } : Sys).setProc p f) g' := by
  have hpos : 0 < r * PGSIZE := by
    have hl := h.good.space.live r hr
    exact h.good.rep.page.pos (by rw [hl]; simp)
  refine h.remap hg hb (by simpa using hr) (fun j => ?_) (fun j hj => ?_) (fun j r' hj hr' => ?_)
    ⟨rfl, rfl, rfl, rfl⟩
  · by_cases hj : j = p
    · subst hj
      rw [Sys.setProc_self]
      exact ⟨hpt, htf⟩
    · rw [Sys.setProc_of_ne _ hj]
      exact ⟨rfl, rfl⟩
  · have hne : j ≠ p := by
      rintro rfl
      rw [hp, page_div] at hj
      exact hj (Finset.mem_singleton_self r)
    rw [Sys.setProc_of_ne _ hne]
  · rw [Finset.mem_singleton] at hr'
    subst hr'
    have hjp : j = p := h.inj j p (hj.trans hp.symm) (by omega)
    subst hjp
    rw [Sys.setProc_self]
    exact ⟨hs, hhigh⟩

/-- A step on memory that leaves every address space and every held page as it was. -/
theorem SysInv.memOnly {t : Sys} (h : SysInv L t g) (hg : Good L s' g' t.roots)
    (hb : Bare t.roots ∅ t.mem s' g g') : SysInv L ({ t with mem := s' } : Sys) g' :=
  h.remap hg hb (by simp) (fun _ => ⟨rfl, rfl⟩) (fun _ _ => rfl) (fun _ _ _ hr => by simp at hr)
    ⟨rfl, rfl, rfl, rfl⟩

theorem Good.retag (h : Good L s g S) (hx : g.own x = .held k) :
    Good L s (g.setOwn x (.held k')) S := by
  refine ⟨⟨h.rep.page.retag hx (.inr ⟨k', rfl⟩), ?_⟩, ?_⟩
  · refine h.rep.table.congr (fun y r l q => ?_) rfl fun _ _ _ _ _ => rfl
    by_cases hy : y = x
    · simp [hy, hx]
    · rw [g.setOwn_own hy]
  · refine h.space.congr (fun r hr => ?_) (fun _ _ _ _ => rfl) (fun _ _ _ _ => rfl) (fun y => ?_)
      fun _ _ => rfl
    · exact g.setOwn_live (h.space.live r hr) (by simp [hx])
    · by_cases hy : y = x
      · simp [hy, hx]
      · rw [g.setOwn_own hy]

theorem Good.alloc (h : Good L s g S) (hf : g.free = x :: f) :
    Good L (s.alloc x) ((g.take x f).setOwn x (.held k)) S := by
  have ht := h.take hf fun _ => repeatByte 5
  have hs : (s.alloc x).setPage x (fun _ => repeatByte 5) = s.alloc x := by
    simp [Mem.setPage, Mem.alloc]
  rw [hs] at ht
  exact ht.retag g.take_own_self

theorem sameSpace_alloc (h : Good L s g S) (hf : g.free = x :: f) (hr : r ∈ S) :
    SameSpace r s (s.alloc x) g ((g.take x f).setOwn x o) := by
  refine ⟨rfl, fun v hv hm => Function.update_of_ne ?_ _ _⟩
  intro he
  have hu := h.space.target r hr v hv hm
  rw [he, h.rep.free_of_cons hf] at hu
  cases hu

/-- `allocproc` has taken page `x` for the trapframe of slot `p`. -/
theorem SysInv.takeTrapframe {t : Sys} {f : Proc → Proc} (h : SysInv L t g)
    (hf : g.free = x :: fl) (h0 : (t.proc p).pagetable = 0) (ht : (t.proc p).trapframe = 0)
    (hpt : (f (t.proc p)).pagetable = 0) (hsz : (f (t.proc p)).sz = 0)
    (htf : (f (t.proc p)).trapframe = x * PGSIZE) :
    SysInv L (({ t with mem := t.mem.alloc x } : Sys).setProc p f)
      ((g.take x fl).setOwn x (.held (.trapframe p))) := by
  have hfree := h.good.rep.free_of_cons hf
  have hown {y : Nat} (hy : g.own y ≠ .free) :
      ((g.take x fl).setOwn x (.held (.trapframe p))).own y = g.own y := by
    have hyx : y ≠ x := by
      rintro rfl
      exact hy hfree
    rw [Ghost.setOwn_own _ hyx, g.take_own hyx]
  have hback {y : Nat} {o : Owner} (ho : o ≠ .held (.trapframe p))
      (hy : ((g.take x fl).setOwn x (.held (.trapframe p))).own y = o) : g.own y = o := by
    by_cases hyx : y = x
    · subst hyx
      rw [Ghost.setOwn_own_self] at hy
      exact (ho hy.symm).elim
    · rwa [Ghost.setOwn_own _ hyx, g.take_own hyx] at hy
  have hroots : (({ t with mem := t.mem.alloc x } : Sys).setProc p f).roots = t.roots := by
    refine Sys.roots_congr fun j => ?_
    by_cases hj : j = p
    · subst hj
      rw [Sys.setProc_self, hpt, h0]
    · rw [Sys.setProc_of_ne _ hj]
  refine h.rebuild p (by rw [hroots]; exact h.good.alloc hf) ?_ (fun j hj => ?_) ⟨rfl, rfl, rfl, rfl⟩
    (fun _ _ _ _ _ => rfl) (fun y k hk _ => (hown (by simp [hk])).trans hk) (fun y k hk => ?_)
    (fun j hj hne => ?_) (fun y r l q hq => ?_) (by rw [hroots]; exact h.kernel) ?_ rfl
  · rw [Sys.setProc_self]
    exact ⟨.inr ⟨x, htf, Ghost.setOwn_own_self _⟩, .inl ⟨hpt, hsz⟩⟩
  · rw [Sys.setProc_of_ne _ hj]
    exact .refl _
  · by_cases hkp : k = .trapframe p
    · refine .inr ⟨hkp, ?_⟩
      rw [Sys.setProc_self, htf]
      by_cases hyx : y = x
      · rw [hyx]
      · rw [Ghost.setOwn_own _ hyx, g.take_own hyx] at hk
        subst hkp
        obtain ⟨_, hy⟩ := h.holder y _ hk
        have hpos := h.good.rep.page.pos (x := y) (by simp [hk])
        rw [show (⟨p.1, p.2⟩ : Slot) = p from rfl, ht] at hy
        omega
    · exact .inl ⟨hback (by simpa using hkp) hk, hkp⟩
  · rw [Sys.setProc_self, hpt]
    exact fun he => hne he.symm
  · rw [hroots]
    exact h.tables y r l q (hback (by simp) hq)
  · have hl := h.static.live
    exact (hown (by rw [hl]; simp)).trans hl

/-- `freeproc` has given back the trapframe of slot `p`. -/
theorem SysInv.freeTrapframe {t : Sys} {p : Slot} {f : Proc → Proc} (h : SysInv L t g)
    (hx : g.own x = .held (.trapframe p)) (ht : (t.proc p).trapframe = x * PGSIZE)
    (hpt : (f (t.proc p)).pagetable = (t.proc p).pagetable) (hsz : (f (t.proc p)).sz = (t.proc p).sz)
    (htf : (f (t.proc p)).trapframe = 0) :
    SysInv L (({ t with mem := t.mem.release x } : Sys).setProc p f) (g.setFree x) := by
  have hback {y : Nat} {o : Owner} (ho : o ≠ .free) (hy : (g.setFree x).own y = o) :
      y ≠ x ∧ g.own y = o := by
    by_cases hyx : y = x
    · subst hyx
      rw [Ghost.setFree_own_self] at hy
      exact (ho hy.symm).elim
    · exact ⟨hyx, by rwa [g.setFree_own hyx] at hy⟩
  have hroots : (({ t with mem := t.mem.release x } : Sys).setProc p f).roots = t.roots := by
    refine Sys.roots_congr fun j => ?_
    by_cases hj : j = p
    · subst hj
      rw [Sys.setProc_self, hpt]
    · rw [Sys.setProc_of_ne _ hj]
  refine h.rebuild p (by rw [hroots]; exact h.good.release hx) ?_ (fun j hj => ?_) ⟨rfl, rfl, rfl, rfl⟩
    (fun _ _ _ _ _ => rfl) (fun y k hk hne => ?_) (fun y k hk => ?_)
    (fun j hj hne => ?_) (fun y r l q hq => ?_) (by rw [hroots]; exact h.kernel) ?_ rfl
  · rw [Sys.setProc_self]
    refine ⟨.inl htf, ?_⟩
    rw [hpt, hsz, htf]
    rcases (h.slot p).pagetable with h0 | ⟨r, y, hr, hpos, hs, hh, hy, hy', _⟩
    · exact .inl h0
    · exact .inr ⟨r, y, hr, hpos, hs.congr rfl, ⟨hh.trapframe, hh.trampoline⟩, hy, hy', .inl rfl⟩
  · rw [Sys.setProc_of_ne _ hj]
    exact .refl _
  · refine (g.setFree_own ?_).trans hk
    rintro rfl
    rw [hx, Owner.held.injEq] at hk
    exact hne hk.symm
  · obtain ⟨hyx, ho⟩ := hback (by simp) hk
    refine .inl ⟨ho, ?_⟩
    rintro rfl
    obtain ⟨_, hy⟩ := h.holder y _ ho
    exact hyx (Nat.eq_of_mul_eq_mul_right (by decide) (hy.symm.trans ht))
  · rw [Sys.setProc_self, hpt]
    exact fun he => hj (h.inj p j he (he ▸ hne)).symm
  · rw [hroots]
    exact h.tables y r l q (hback (by simp) hq).2
  · have hl := h.static.live
    refine (g.setFree_own ?_).trans hl
    intro he
    rw [Ghost.Live, he, hx] at hl
    cases hl

theorem Sys.roots_insert {t t' : Sys} (h0 : (t.proc p).pagetable = 0)
    (hp : (t'.proc p).pagetable = r * PGSIZE) (hr : 0 < r * PGSIZE)
    (hother : ∀ j, j ≠ p → (t'.proc j).pagetable = (t.proc j).pagetable) :
    t'.roots = insert r t.roots := by
  ext r'
  rw [Finset.mem_insert, t.mem_roots, t'.mem_roots]
  constructor
  · rintro ⟨j, hne, he⟩
    by_cases hj : j = p
    · rw [hj, hp, page_div] at he
      exact .inl he.symm
    · rw [hother j hj] at hne he
      exact .inr ⟨j, hne, he⟩
  · rintro (rfl | ⟨j, hne, he⟩)
    · exact ⟨p, by omega, by rw [hp, page_div]⟩
    · have hj : j ≠ p := by
        rintro rfl
        exact hne h0
      exact ⟨j, by rwa [hother j hj], by rwa [hother j hj]⟩

theorem SysInv.roots_erase {t t' : Sys} (h : SysInv L t g) (h0 : (t'.proc p).pagetable = 0)
    (hp : (t.proc p).pagetable = r * PGSIZE) (hr : 0 < r * PGSIZE)
    (hother : ∀ j, j ≠ p → (t'.proc j).pagetable = (t.proc j).pagetable) :
    t'.roots = t.roots.erase r := by
  ext r'
  rw [Finset.mem_erase, t.mem_roots, t'.mem_roots]
  constructor
  · rintro ⟨j, hne, he⟩
    have hj : j ≠ p := by
      rintro rfl
      exact hne h0
    rw [hother j hj] at hne he
    refine ⟨?_, j, hne, he⟩
    obtain ⟨r₁, _, hr₁, _⟩ := h.space hne
    rw [hr₁, page_div] at he
    exact he ▸ h.root_ne hp hr hr₁ hj
  · rintro ⟨hrr, j, hne, he⟩
    have hj : j ≠ p := by
      rintro rfl
      rw [hp, page_div] at he
      exact hrr he.symm
    exact ⟨j, by rwa [hother j hj], by rwa [hother j hj]⟩

/-- `proc_pagetable` has made a page table for slot `p`. -/
theorem SysInv.addPagetable {t : Sys} {p : Slot} {f : Proc → Proc} (h : SysInv L t g)
    (h0 : (t.proc p).pagetable = 0) (hcr : Created L t.roots r t.mem s' g g') (hr : 0 < r * PGSIZE)
    (hs : Shape g' r (npages 0)) (hh : High L g' r x) (ht : (t.proc p).trapframe = x * PGSIZE)
    (hx : g.own x = .held (.trapframe p)) (hpt : (f (t.proc p)).pagetable = r * PGSIZE)
    (hsz : (f (t.proc p)).sz = 0) (htf : (f (t.proc p)).trapframe = (t.proc p).trapframe) :
    SysInv L (({ t with mem := s' } : Sys).setProc p f) g' := by
  have hfr := hcr.frame
  have hroots : (({ t with mem := s' } : Sys).setProc p f).roots = insert r t.roots := by
    refine Sys.roots_insert (t := t) h0 (p := p) ?_ hr fun j hj => ?_
    · rw [Sys.setProc_self, hpt]
    · rw [Sys.setProc_of_ne _ hj]
  have hrt := hcr.notMem h.good.space
  have hne {r₁ : Nat} (hr₁ : r₁ ∈ t.roots) : r₁ ∉ ({r} : Finset Nat) := by
    rw [Finset.mem_singleton]
    rintro rfl
    exact hrt hr₁
  have hk : t.kernel_pagetable / PGSIZE ∉ ({r} : Finset Nat) := by
    rw [Finset.mem_singleton]
    intro he
    have hl := h.static.live
    rw [Ghost.Live, he, hcr.fresh] at hl
    cases hl
  have hown {y : Nat} {k : Holder} (hy : g.own y = .held k) : g'.own y = .held k := by
    refine (hfr.held y k hy ?_).1
    rintro rfl
    exact h.holder y _ hy
  refine h.rebuild p (by rw [hroots]; exact hcr.good) ?_ (fun j hj => ?_) ⟨rfl, rfl, rfl, rfl⟩
    (fun j hj r₁ hj₁ h₁ => ?_) (fun y k hy _ => hown hy) (fun y k hy => ?_) (fun j hj hj0 => ?_)
    (fun y r₁ l q hq => ?_) ?_ ?_ (hfr.pt _ hk)
  · rw [Sys.setProc_self]
    refine ⟨.inr ⟨x, htf.trans ht, hown hx⟩, .inr ⟨r, x, hpt, hr, by rwa [hsz], hh, ?_, ?_,
      .inr (htf.trans ht)⟩⟩
    · exact h.good.rep.page.lt44 (by simp [hx])
    · exact h.good.rep.page.pos (by simp [hx])
  · rw [Sys.setProc_of_ne _ hj]
    exact .refl _
  · exact hfr.pt r₁ (hne (t.root_mem hj₁ h₁))
  · by_cases hkp : k = .trapframe p
    · refine .inr ⟨hkp, ?_⟩
      subst hkp
      obtain ⟨_, hy⟩ := h.holder y _ (hfr.holder y _ hy)
      rw [Sys.setProc_self, htf]
      exact hy
    · exact .inl ⟨hfr.holder y k hy, hkp⟩
  · rw [Sys.setProc_self, hpt]
    intro he
    exact hrt (t.root_mem he.symm hr)
  · rw [hroots]
    by_cases hr₁ : r₁ = r
    · exact .inl (by simp [hr₁])
    · rcases h.tables y r₁ l q ((hfr.tables y r₁ l q (by simpa using hr₁)).1 hq) with hm | hm
      · exact .inl (Finset.mem_insert_of_mem hm)
      · exact .inr hm
  · rw [hroots, Finset.mem_insert]
    rintro (he | hm)
    · exact hk (by simp [he])
    · exact h.kernel hm
  · exact (hfr.tables _ _ _ _ hk).2 h.static.live

/-- `proc_freepagetable` has taken the page table of slot `p` away. -/
theorem SysInv.removePagetable {t : Sys} {p : Slot} {f : Proc → Proc} (h : SysInv L t g)
    (hp : (t.proc p).pagetable = r * PGSIZE) (hr : 0 < r * PGSIZE)
    (hg : Good L s' g' (t.roots.erase r)) (hfr : Frame t.roots {r} t.mem s' g g')
    (hgone : Gone r g g') (hpt : (f (t.proc p)).pagetable = 0) (hsz : (f (t.proc p)).sz = 0)
    (htf : (f (t.proc p)).trapframe = (t.proc p).trapframe) :
    SysInv L (({ t with mem := s' } : Sys).setProc p f) g' := by
  have hroots : (({ t with mem := s' } : Sys).setProc p f).roots = t.roots.erase r := by
    refine h.roots_erase (p := p) ?_ hp hr fun j hj => ?_
    · rw [Sys.setProc_self, hpt]
    · rw [Sys.setProc_of_ne _ hj]
  have hk : t.kernel_pagetable / PGSIZE ∉ ({r} : Finset Nat) := by
    simpa using h.root_ne_kernel hp hr
  have hown {y : Nat} {k : Holder} (hy : g.own y = .held k) : g'.own y = .held k := by
    refine (hfr.held y k hy ?_).1
    rintro rfl
    exact h.holder y _ hy
  refine h.rebuild p (by rw [hroots]; exact hg) ?_ (fun j hj => ?_) ⟨rfl, rfl, rfl, rfl⟩
    (fun j hj r₁ hj₁ h₁ => ?_) (fun y k hy _ => hown hy) (fun y k hy => ?_) (fun j hj hj0 => ?_)
    (fun y r₁ l q hq => ?_) ?_ ?_ (hfr.pt _ hk)
  · rw [Sys.setProc_self]
    refine ⟨?_, .inl ⟨hpt, hsz⟩⟩
    rw [htf]
    rcases (h.slot p).trapframe with h0 | ⟨y, hy, ho⟩
    · exact .inl h0
    · exact .inr ⟨y, hy, hown ho⟩
  · rw [Sys.setProc_of_ne _ hj]
    exact .refl _
  · exact hfr.pt r₁ (by simpa using h.root_ne hp hr hj₁ hj)
  · by_cases hkp : k = .trapframe p
    · refine .inr ⟨hkp, ?_⟩
      subst hkp
      obtain ⟨_, hy⟩ := h.holder y _ (hfr.holder y _ hy)
      rw [Sys.setProc_self, htf]
      exact hy
    · exact .inl ⟨hfr.holder y k hy, hkp⟩
  · rw [Sys.setProc_self, hpt]
    exact fun he => hj0 he.symm
  · rw [hroots]
    have hr₁ : r₁ ≠ r := by
      rintro rfl
      exact hgone.no_table y l q hq
    rcases h.tables y r₁ l q ((hfr.tables y r₁ l q (by simpa using hr₁)).1 hq) with hm | hm
    · exact .inl (Finset.mem_erase.2 ⟨hr₁, hm⟩)
    · exact .inr hm
  · rw [hroots]
    exact fun hm => h.kernel (Finset.mem_of_mem_erase hm)
  · exact (hfr.tables _ _ _ _ hk).2 h.static.live

end PbsCow

import PbsCow.Fork

namespace PbsCow
set_option autoImplicit true

/-- A page that `uvmalloc` has just mapped for the heap. -/
def UPage.heap : UPage := ⟨PTE_R ||| PTE_U ||| PTE_W ||| PTE_V, fun _ => 0⟩

/-- An address space of `n` pages that has been given `n'` pages. -/
def resizePages (n n' : Nat) (pages : Nat → Option UPage) (v : Nat) : Option UPage :=
  if n ≤ v ∧ v < n' then some .heap else if n' ≤ v ∧ v < n then none else pages v

/-- The size that `growproc(n)` asks for; below zero the `uint64` wraps and nothing is freed. -/
def sbrkSize (sz : Nat) (n : Int) : Nat := if sz + n < 0 then sz else (sz + n).toNat

theorem heapFlags : UserFlags (PTE_R ||| PTE_U ||| PTE_W ||| PTE_V) :=
  ⟨by decide, by decide, by decide, by decide⟩

structure GrowprocPost (L : Layout) (p : Slot) (n : Int) (t : Sys) (ret : Int) (t' : Sys) : Prop where
  inv : ∃ g', SysInv L t' g'
  others : Others (· = p) t t'
  proc : t'.proc p = { t.proc p with sz := (t'.proc p).sz }
  result : ret = -1 ∧ (t'.proc p).sz = (t.proc p).sz ∧ t'.pages p = t.pages p ∨
    ret = 0 ∧ (t'.proc p).sz = sbrkSize (t.proc p).sz n ∧
      t'.pages p = resizePages (npages (t.proc p).sz) (npages (t'.proc p).sz) (t.pages p)

theorem resizePages_self (n : Nat) (f : Nat → Option UPage) : resizePages n n f = f := by
  funext v
  rw [resizePages, if_neg (by omega), if_neg (by omega)]

theorem Good.pages_high (h : Good L s g S) (hr : r ∈ S) (hv : TFV ≤ v) :
    s.pages (r * PGSIZE) v = none :=
  h.pages_none hr fun hv' => by omega

theorem Good.pages_resized_up (h : Good L s g S) (h' : Good L s' g' S) (hr : r ∈ S)
    (hn : n' ≤ TFV) (hle : n ≤ n')
    (hg : Grown r n (n' - n) (PTE_R ||| PTE_U ||| PTE_W ||| PTE_V) s s' g g') :
    s'.pages (r * PGSIZE) = resizePages n n' (s.pages (r * PGSIZE)) := by
  funext v
  have hin : n ≤ v ∧ v < n + (n' - n) ↔ n ≤ v ∧ v < n' := by omega
  rw [resizePages, if_neg (show ¬ (n' ≤ v ∧ v < n) by omega)]
  by_cases hv : v < TFV
  · rw [h.pages_grown h' hr hg heapFlags (by decide) v hv]
    simp only [hin]
    rfl
  · rw [h.pages_high hr (by omega), h'.pages_high hr (by omega), if_neg (by omega)]

theorem Good.pages_resized_down (h : Good L s g S) (h' : Good L s' g' S) (hr : r ∈ S)
    (hle : n' ≤ n) (hp : g'.pt r = clearRange (g.pt r) n' (n - n')) (hk : Keeps r s s' g') :
    s'.pages (r * PGSIZE) = resizePages n n' (s.pages (r * PGSIZE)) := by
  funext v
  have hin : n' ≤ v ∧ v < n' + (n - n') ↔ n' ≤ v ∧ v < n := by omega
  rw [resizePages, if_neg (show ¬ (n ≤ v ∧ v < n') by omega), h.pages_cleared h' hr hp hk v]
  simp only [hin]

/-- A step on the memory of slot `p` that keeps the size of its address space. -/
theorem SysInv.memStep {t : Sys} {p : Slot} (h : SysInv L t g) (hp : (t.proc p).pagetable = r * PGSIZE)
    (hr : r ∈ t.roots) (hg : Good L s' g' t.roots) (hb : Bare t.roots {r} t.mem s' g g')
    (hs : Shape g' r (npages (t.proc p).sz)) (hhigh : ∀ v, TFV ≤ v → g'.pt r v = g.pt r v) :
    SysInv L ({ t with mem := s' } : Sys) g' := by
  refine h.remap hg hb (by simpa using hr) (fun _ => ⟨rfl, rfl⟩) (fun _ _ => rfl)
    (fun j r' hj hr' => ?_) ⟨rfl, rfl, rfl, rfl⟩
  rw [Finset.mem_singleton] at hr'
  subst hr'
  have hpos : 0 < r' * PGSIZE := by
    have hl := h.good.space.live r' hr
    exact h.good.rep.page.pos (by rw [hl]; simp)
  have hjp : j = p := h.inj j p (hj.trans hp.symm) (by omega)
  subst hjp
  exact ⟨hs, hhigh⟩

theorem SysInv.memStep_others {t : Sys} {p : Slot} (h : SysInv L t g)
    (h' : SysInv L ({ t with mem := s' } : Sys) g') (hp : (t.proc p).pagetable = r * PGSIZE)
    (hr : r ∈ t.roots)
    (hkeep : ∀ r' ∈ t.roots, r' ≠ r → SameSpace r' t.mem s' g g') :
    Others (· = p) t ({ t with mem := s' } : Sys) where
  proc _ _ := rfl
  pages j hj h0 := by
    have hpos : 0 < r * PGSIZE := by
      have hl := h.good.space.live r hr
      exact h.good.rep.page.pos (by rw [hl]; simp)
    exact h.pages_cow h' rfl h0 fun r' hr' hm => (hkeep r' hm (h.root_ne hp hpos hr' hj)).cowSame
  init := rfl
  ticks := rfl

/-- The memory of `p` has been resized; `growproc` records the new size. -/
theorem SysInv.resized {t : Sys} {p : Slot} (h : SysInv L t g) (hp : (t.proc p).pagetable = r * PGSIZE)
    (hr : r ∈ t.roots) (hg : Good L s' g' t.roots) (hfr : Frame t.roots {r} t.mem s' g g')
    (hs : Shape g' r (npages sz')) (hhigh : ∀ v, TFV ≤ v → g'.pt r v = g.pt r v)
    (hpages : s'.pages (r * PGSIZE) =
      resizePages (npages (t.proc p).sz) (npages sz') (t.mem.pages (r * PGSIZE)))
    (hsz : sz' = sbrkSize (t.proc p).sz n) :
    GrowprocPost L p n t 0 (({ t with mem := s' } : Sys).setProc p fun q => { q with sz := sz' }) := by
  have h' := h.resize (f := fun q => { q with sz := sz' }) hp hr hg hfr.bare hs hhigh rfl rfl
  have hpos : 0 < r * PGSIZE := by
    have hl := h.good.space.live r hr
    exact h.good.rep.page.pos (by rw [hl]; simp)
  refine ⟨⟨g', h'⟩, h.others h' fun j hj r' hr' hm => ?_, by rw [Sys.setProc_self],
    .inr ⟨rfl, by rw [Sys.setProc_self]; exact hsz, ?_⟩⟩
  · exact (hfr.same hm (by simpa using h.root_ne hp hpos hr' hj)).cowSame
  · simp only [Sys.pages, Sys.setProc_self, Sys.setProc_mem, hp]
    exact hpages

/-- `sbrk` resizes the address space of its caller, or fails and changes nothing. -/
theorem SysInv.growproc {t : Sys} {p : Slot} (h : SysInv L t g) (hp : (t.proc p).pagetable ≠ 0)
    (n : Int) (hn : -2 ^ 31 ≤ n) :
    Wp (growproc L p n) NoError (fun ret t' => GrowprocPost L p n t ret t') t := by
  obtain ⟨r, x, hr, hmem, hs, _⟩ := h.space hp
  rw [PbsCow.growproc]
  simp only [wp_bind, wp_get]
  refine .ite (fun hpos => ?_) fun hpos => .ite (fun hneg => ?_) fun hneg => ?_
  · rw [hr]
    simp only [wp_bind, wp_onMem]
    refine (h.good.uvmalloc hmem hs heapFlags).mono ?_
    rintro ret s' ⟨g', hg, hfr, ⟨rfl, huse, hs', hgr⟩ | ⟨rfl, hlt, _, hsame⟩⟩
    · have hmax : max (t.proc p).sz ((t.proc p).sz + n.toNat) = (t.proc p).sz + n.toNat := by omega
      rw [hmax] at hs' ⊢
      refine .ite_neg (by omega) (wp_bind.2 (wp_setProc.2 (wp_pure.2 ?_)))
      have hmono : npages (t.proc p).sz ≤ npages ((t.proc p).sz + n.toNat) := npages_mono (by omega)
      refine h.resized hr hmem hg hfr hs' (fun v hv => hgr.old v ?_)
        (h.good.pages_resized_up hg hmem hs'.le hmono hgr) ?_
      · have hle := hs'.le
        omega
      · rw [sbrkSize, if_neg (by omega)]
        omega
    · refine .ite_pos rfl (wp_pure.2 ?_)
      have h' := h.memStep hr hmem hg hfr.bare (hs.congr hsame.pt) fun v _ => by rw [hsame.pt]
      refine ⟨⟨g', h'⟩, h.memStep_others h' hr hmem fun r' hm hne => ?_, rfl,
        .inl ⟨rfl, rfl, ?_⟩⟩
      · exact hfr.same hm (by simpa using hne)
      · show s'.pages (t.proc p).pagetable = t.mem.pages (t.proc p).pagetable
        rw [hr]
        exact h.good.pages_same hg hmem hmem hsame
  · rw [hr]
    simp only [wp_bind, wp_onMem]
    refine (h.good.uvmdealloc hmem hs.le hs.mapped).mono ?_
    rintro ret s' ⟨g', hg, hfr, hk, _, rfl, hp'⟩
    refine wp_setProc.2 (wp_pure.2 ?_)
    generalize hz : min (t.proc p).sz (((t.proc p).sz + n) % 2 ^ 64).toNat = sz'
    have hle := add_le_of_npages hs.le
    have hsz : sz' = sbrkSize (t.proc p).sz n := by
      rw [← hz, sbrkSize]
      split
      · rw [← Int.add_emod_right, Int.emod_eq_of_lt (by omega) (by omega)]
        omega
      · rw [Int.emod_eq_of_lt (by omega) (by omega)]
        omega
    have hnp : npages (((t.proc p).sz + n) % 2 ^ 64).toNat = npages sz' ∨
        npages (t.proc p).sz - npages (((t.proc p).sz + n) % 2 ^ 64).toNat = 0 ∧ sz' = (t.proc p).sz := by
      rcases Nat.le_total (t.proc p).sz (((t.proc p).sz + n) % 2 ^ 64).toNat with hmin | hmin
      · exact .inr ⟨Nat.sub_eq_zero_of_le (npages_mono hmin), by omega⟩
      · exact .inl (by rw [← hz, Nat.min_eq_right hmin])
    have hpt : g'.pt r = clearRange (g.pt r) (npages sz') (npages (t.proc p).sz - npages sz') := by
      rcases hnp with he | ⟨h0, he⟩
      · rw [hp', he]
      · rw [hp', h0, he, Nat.sub_self, clearRange_zero, clearRange_zero]
    have hmono : npages sz' ≤ npages (t.proc p).sz := npages_mono (by omega)
    refine h.resized hr hmem hg hfr ⟨fun w hw => ?_, fun w hw hw' => ?_, hmono.trans hs.le⟩
      (fun v hv => ?_) (h.good.pages_resized_down hg hmem hmono hpt hk) hsz
    · rw [hpt, clearRange, if_neg (by omega)]
      exact hs.mapped w (by omega)
    · rw [hpt, clearRange]
      split
      · rfl
      · exact hs.none w (by omega) hw'
    · have hle := hs.le
      rw [hpt, clearRange, if_neg (by omega)]
  · have hz : n = 0 := by omega
    refine wp_bind.2 (wp_setProc.2 (wp_pure.2 ?_))
    refine ⟨⟨g, h.sameMem (t.setProc_sameMem ⟨rfl, rfl, rfl⟩)⟩, .setProc t p _,
      by rw [Sys.setProc_self], .inr ⟨rfl, ?_, ?_⟩⟩
    · rw [Sys.setProc_self, hz, sbrkSize, if_neg (by omega)]
      simp
    · rw [Sys.setProc_self, resizePages_self, Sys.pages, Sys.setProc_self]
      rfl

end PbsCow

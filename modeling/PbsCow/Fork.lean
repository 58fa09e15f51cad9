import PbsCow.Lifecycle

namespace PbsCow
set_option autoImplicit true

/-- Writing to a page in use keeps the invariant. -/
theorem SysInv.setPage {t : Sys} (h : SysInv L t g)
    (hx : g.own x = .user ∨ ∃ k, g.own x = .held k) :
    SysInv L { t with mem := t.mem.setPage x w } g :=
  ⟨h.good.setPage hx, h.slot, h.inj, h.tables, h.kernel, h.static, h.holder, h.aligned⟩

theorem sameSpace_setHeld (h : Good L s g S) (hx : g.own x = .held k) (hr : r ∈ S) :
    SameSpace r s (s.setPage x pg) g g := by
  refine ⟨rfl, fun v hv hm => Function.update_of_ne ?_ _ _⟩
  intro he
  have hu := h.space.target r hr v hv hm
  rw [he, hx] at hu
  cases hu

/-- Writing to a trapframe is invisible to every address space. -/
theorem SysInv.others_setHeld {t : Sys} (h : SysInv L t g) (hx : g.own x = .held k) :
    Others A t { t with mem := t.mem.setPage x w } where
  proc _ _ := rfl
  pages _ _ h0 := h.pages_cow (h.setPage (.inr ⟨k, hx⟩)) rfl h0 fun _ _ hr =>
    (sameSpace_setHeld h.good hx hr).cowSame
  init := rfl
  ticks := rfl

/-- The child `np` of a successful `fork` by `p`. -/
structure Forked (L : Layout) (p np : Slot) (t : Sys) (g : Ghost) (t' : Sys) : Prop where
  unused : (t.proc np).state = .UNUSED
  inv : ∃ g', SysInv L t' g' ∧ Uses (6 + 2 * npages (t.proc p).sz) g g'
  others : Others (· = np) t t'
  state : (t'.proc np).state = .RUNNABLE
  pagetable : (t'.proc np).pagetable ≠ 0
  trapframe : (t'.proc np).trapframe ≠ 0
  sz : (t'.proc np).sz = (t.proc p).sz
  parent : (t'.proc np).parent = some p
  pages : t'.pages np = t.pages p
  ptes : ∀ v, v < npages (t.proc p).sz →
    t'.mem.pte (t.proc p).pagetable (v * PGSIZE) =
        cowPte (t.mem.pte (t.proc p).pagetable (v * PGSIZE)) ∧
      t'.mem.pte (t'.proc np).pagetable (v * PGSIZE) =
        cowPte (t.mem.pte (t.proc p).pagetable (v * PGSIZE))

/-- Of what was there no page table has grown or shrunk, and no PTE maps another page. -/
structure Undone (t t' : Sys) (g g' : Ghost) : Prop where
  static : t.SameStatic t'
  pt : ∀ r ∈ t.roots, ∀ v, g'.pt r v = g.pt r v ∨
    v < TFV ∧ g.pt r v ≠ 0 ∧ g'.pt r v = cowPte (g.pt r v)
  kernel : g'.pt (t.kernel_pagetable / PGSIZE) = g.pt (t.kernel_pagetable / PGSIZE)
  tables : ∀ r, r ∈ t.roots ∨ r = t.kernel_pagetable / PGSIZE → ∀ x l p,
    (g'.own x = .table r l p ↔ g.own x = .table r l p)

/-- A `fork` that returns -1. -/
structure NotForked (L : Layout) (p : Slot) (t : Sys) (g : Ghost) (t' : Sys) : Prop where
  inv : ∃ g', SysInv L t' g' ∧ Undone t t' g g'
  others : Others (fun j => (t.proc j).state = .UNUSED) t t'
  unused : ∀ j, (t.proc j).state = .UNUSED → Unused (t'.proc j)
  reason : (∀ j, (t.proc j).state ≠ .UNUSED) ∨ g.free.length ≤ 6 + 2 * npages (t.proc p).sz

def ForkPost (L : Layout) (p : Slot) (t : Sys) (g : Ghost) (ret : Option Slot) (t' : Sys) : Prop :=
  match ret with
  | none => NotForked L p t g t'
  | some np => Forked L p np t g t'

/-- A page that was free is the root of no page table that was there. -/
theorem SysInv.root_of_free {t : Sys} (h : SysInv L t g) (hx : g.own x = .free ∨ x = 0)
    (hr : r ∈ t.roots ∨ r = t.kernel_pagetable / PGSIZE) : r ≠ x := by
  have hlive : g.own r = .table r 2 0 := by
    rcases hr with hr | rfl
    · exact h.good.space.live r hr
    · exact h.static.live
  rintro rfl
  rcases hx with hx | rfl
  · rw [hx] at hlive
    cases hlive
  · exact absurd (h.good.rep.page.pos (x := 0) (by rw [hlive]; simp)) (by decide)

theorem Spared.undone {t t' : Sys} (h : SysInv L t g) (hx : g.own x = .free ∨ x = 0)
    (hs : Spared {x} t t' g g') : Undone t t' g g' := by
  have hne {r : Nat} (hr : r ∈ t.roots ∨ r = t.kernel_pagetable / PGSIZE) : r ∉ ({x} : Finset Nat) := by
    rw [Finset.mem_singleton]
    exact h.root_of_free hx hr
  exact ⟨hs.static, fun r hr v => .inl (congrFun (hs.pt r (hne (.inl hr))) v), hs.pt _ (hne (.inr rfl)),
    fun r hr x l p => hs.tables x r l p (hne hr)⟩

theorem AllocFailed.notForked {t : Sys} (hi : SysInv L t g) (h : AllocFailed L t g t') :
    NotForked L p t g t' := by
  obtain ⟨g', hi', ho, hu, hsp, hr⟩ := h
  refine ⟨⟨g', hi', hsp.undone hi (.inr rfl)⟩, ho, hu, hr.imp_right fun hle => ?_⟩
  omega

/-- A new root `r'` is taken, `r` is copied to it, and it is given back. -/
theorem Spared.copied {t t₁ t₂ : Sys} (h : Spared {r'} t t₁ g g₁) (hi : SysInv L t g)
    (hroot : g.own r' = .free) (hr : r ∈ t.roots) (hfr : Frame S {r, r'} s s' g₁ g₂)
    (hc : CowSame r s s' g₁ g₂) (ht : TablesBut r' g₁ g₂) (hs : Spared {r'} t₁ t₂ g₂ g₃) :
    Undone t t₂ g g₃ := by
  have hne {r₁ : Nat} (hr₁ : r₁ ∈ t.roots ∨ r₁ = t.kernel_pagetable / PGSIZE) : r₁ ∉ ({r'} : Finset Nat) := by
    rw [Finset.mem_singleton]
    exact hi.root_of_free (.inl hroot) hr₁
  have hk : t.kernel_pagetable / PGSIZE ≠ r := fun he => hi.kernel (he ▸ hr)
  have hpt {r₁ : Nat} (hr₁ : r₁ ∈ t.roots ∨ r₁ = t.kernel_pagetable / PGSIZE) (hne₁ : r₁ ≠ r) :
      g₃.pt r₁ = g.pt r₁ := by
    rw [hs.pt r₁ (hne hr₁), hfr.pt r₁ (by simpa [hne₁] using hne hr₁), h.pt r₁ (hne hr₁)]
  refine ⟨h.static.trans hs.static, fun r₁ hr₁ v => ?_, hpt (.inr rfl) hk, fun r₁ hr₁ x l p => ?_⟩
  · by_cases he : r₁ = r
    · subst he
      rw [hs.pt r₁ (hne (.inl hr₁)), ← h.pt r₁ (hne (.inl hr₁))]
      exact hc.pt v
    · rw [hpt (.inl hr₁) he]
      exact .inl rfl
  · rw [hs.tables x r₁ l p (hne hr₁), ht x r₁ l p (by simpa using hne hr₁), h.tables x r₁ l p (hne hr₁)]

theorem Fresh.shape (h : SysInv L t g) (hf : Fresh (t.proc p)) :
    ∃ r x, (t.proc p).pagetable = r * PGSIZE ∧ 0 < r * PGSIZE ∧ r ∈ t.roots ∧ Shape g r 0 ∧
      (t.proc p).trapframe = x * PGSIZE ∧ g.own x = .held (.trapframe p) := by
  obtain ⟨r, _, hr, hmem, hs, _⟩ := h.space hf.pagetable
  rcases (h.slot p).trapframe with h0 | ⟨x, hx, ho⟩
  · exact (hf.trapframe h0).elim
  · rw [hf.sz] at hs
    have hpos : 0 < r * PGSIZE := by
      have hne := hf.pagetable
      omega
    exact ⟨r, x, hr, hpos, hmem, by simpa [npages, PGSIZE] using hs, hx, ho⟩

theorem SysInv.pte {t : Sys} (h : SysInv L t g) (hr : r ∈ t.roots) (hv : v < MAXV) :
    t.mem.pte (r * PGSIZE) (v * PGSIZE) = g.pt r v :=
  h.good.rep.pte_page (h.good.space.live r hr) hv

theorem CowSame.shape (hg : Good L s g S) (hr : r ∈ S) (h : CowSame r s s' g g')
    (hs : Shape g r n) : Shape g' r n := by
  refine ⟨fun w hw => ?_, fun w hw hw' => ?_, hs.le⟩
  · rcases h.pt w with he | ⟨hv, hm, he⟩
    · rw [he]
      exact hs.mapped w hw
    · rw [he]
      exact (hg.space.leaf r hr w hv hm).flags.cow.mkPte_ne_zero _
  · rcases h.pt w with he | ⟨_, hm, _⟩
    · rw [he]
      exact hs.none w hw hw'
    · exact (hm (hs.none w hw hw')).elim

theorem CowSame.high (h : CowSame r s s' g g') (hv : TFV ≤ v) : g'.pt r v = g.pt r v := by
  rcases h.pt v with he | ⟨hv', _⟩
  · exact he
  · omega

theorem Copied.shape (hg : Good L s g S) (hr : r ∈ S) (h : Copied r r' 0 n g g') (hs : Shape g r n)
    (hs' : Shape g r' 0) : Shape g' r' n := by
  refine ⟨fun w hw => ?_, fun w hw hw' => ?_, hs.le⟩
  · rw [(h.new w (Nat.zero_le w) (by omega)).2]
    have hlt := Nat.lt_of_lt_of_le hw hs.le
    exact (hg.space.leaf r hr w hlt (hs.mapped w hw)).flags.cow.mkPte_ne_zero _
  · rw [(h.old w (by omega)).2]
    exact hs'.none w (Nat.zero_le w) hw'

/-- What is left of `fork` once the memory has been copied: only the new slot and its trapframe. -/
theorem SysInv.forkTail {t : Sys} {np : Slot} {f : Proc → Proc} (h : SysInv L t g)
    (ho : g.own x = .held (.trapframe np)) (h0 : (t.proc np).pagetable ≠ 0)
    (hf : ∀ q : Proc, q.SameMem (f q)) :
    Wp (do
      onMem (copyTrapframe (x * PGSIZE) tf)
      onMem (storeWord (x * PGSIZE + tfA0) 0)
      setProc np f
      return some np) NoError (fun ret t' => ret = some np ∧ SysInv L t' g ∧ Others (· = np) t t' ∧
        t'.proc np = f (t.proc np) ∧ t'.pages np = t.pages np ∧
        ∀ r ∈ t.roots, ∀ v, v < MAXV → t'.mem.pte (r * PGSIZE) (v * PGSIZE) = g.pt r v) t := by
  have hslot : x * PGSIZE + tfA0 = x * PGSIZE + 8 * 14 := rfl
  simp only [wp_bind, wp_onMem, wp_setProc, wp_pure, copyTrapframe, storeWord, wp_modify, page_div,
    hslot, Mem.store_slot _ x (show 14 < 512 by decide)]
  generalize hp₁ : (fun i => if i < tfWords then t.mem.ram (tf / PGSIZE) i else t.mem.ram x i) = pg₁
  generalize hp₂ : Function.update ((t.mem.setPage x pg₁).ram x) 14 0 = pg₂
  have h₁ : SysInv L { t with mem := (t.mem.setPage x pg₁) } g := h.setPage (.inr ⟨_, ho⟩)
  have h₂ : SysInv L { t with mem := (t.mem.setPage x pg₁).setPage x pg₂ } g :=
    h₁.setPage (.inr ⟨_, ho⟩)
  have ho₁ : Others (fun _ => False) t { t with mem := (t.mem.setPage x pg₁) } :=
    h.others_setHeld ho
  have ho₂ : Others (fun _ => False) { t with mem := (t.mem.setPage x pg₁) }
      { t with mem := (t.mem.setPage x pg₁).setPage x pg₂ } := h₁.others_setHeld ho
  have ho' := ho₁.trans ho₂
  have h₃ := h₂.sameMem (Sys.setProc_sameMem (i := np) _ (hf _))
  refine ⟨trivial, h₃, (ho'.mono fun _ hf => hf.elim).trans (.setProc _ np f), Sys.setProc_self _, ?_,
    fun r hr v hv => ?_⟩
  · rw [Sys.pages, Sys.setProc_self, (hf _).2.1]
    exact ho'.pages np (fun hf => hf) h0
  · have hroots := (Sys.setProc_sameMem (i := np) _ (hf (t.proc np)) :
      ({ t with mem := (t.mem.setPage x pg₁).setPage x pg₂ } : Sys).SameMem _).roots
    exact h₃.pte (by rw [hroots]; exact hr) hv

/-- `fork` copies the address space, or fails and leaves every process as it was. -/
theorem SysInv.fork {t : Sys} (h : SysInv L t g) (hst : Settled t)
    (hp : (t.proc p).state ≠ .UNUSED) : Wp (fork L p) NoError (ForkPost L p t g) t := by
  rw [PbsCow.fork]
  refine .bind (h.allocproc hst.unused) ?_
  rintro (_ | np) t₁ hpost
  · exact wp_pure.2 (AllocFailed.notForked h hpost)
  obtain ⟨hnp, g₁, h₁, ho₁, hfresh, huse₁, hsp₁, hroot₁, _⟩ := hpost
  have hpnp : p ≠ np := by
    rintro rfl
    exact hp hnp
  have hproc : t₁.proc p = t.proc p := ho₁.proc p hpnp
  obtain ⟨r, _, hr, hmem₀, _⟩ := h.space (hst.used p hp).1
  obtain ⟨r₁, _, hr₁, hmem, hs, _⟩ := h₁.space (p := p) (by rw [hproc]; exact (hst.used p hp).1)
  have he : r₁ = r := by
    rw [hproc] at hr₁
    exact Nat.eq_of_mul_eq_mul_right (by decide) (hr₁.symm.trans hr)
  subst he
  obtain ⟨r', x, hr', hpos', hmem', hs', hx, hown⟩ := hfresh.shape h₁
  have hrr : r₁ ≠ r' := h₁.root_ne hr' hpos' hr₁ hpnp
  have hparent : ∀ v, v < MAXV → t.mem.pte (r₁ * PGSIZE) (v * PGSIZE) = g₁.pt r₁ v := by
    intro v hv
    rw [h.pte hmem₀ hv, hsp₁.pt r₁ (by simpa using h.root_of_free (.inl hroot₁) (.inl hmem₀))]
  simp only [wp_bind, wp_get, wp_onMem]
  rw [hr₁, hr', hx, hproc]
  rw [hproc] at hs
  refine (h₁.good.uvmcopy hmem hmem' hrr hs hs').mono ?_
  rintro ret s₂ ⟨g₂, hg₂, hfr₂, hcow, htab₂, hret⟩
  have hkeep {j : Slot} (hj : j ≠ np) {r₂ : Nat} (hj₂ : (t₁.proc j).pagetable = r₂ * PGSIZE)
      (hm₂ : r₂ ∈ t₁.roots) : CowSame r₂ t₁.mem s₂ g₁ g₂ := by
    by_cases hjp : r₂ = r₁
    · rw [hjp]
      exact hcow
    · refine (hfr₂.same hm₂ ?_).cowSame
      have hne := h₁.root_ne hr' hpos' hj₂ hj
      simp [hjp, hne]
  have hsub : ({r₁, r'} : Finset Nat) ⊆ t₁.roots := by
    intro r₂ hr₂
    rw [Finset.mem_insert, Finset.mem_singleton] at hr₂
    rcases hr₂ with rfl | rfl
    · exact hmem
    · exact hmem'
  have hroot (j : Slot) (r₂ : Nat) (hj : (t₁.proc j).pagetable = r₂ * PGSIZE)
      (hr₂ : r₂ ∈ ({r₁, r'} : Finset Nat)) : r₁ = r₂ ∧ p = j ∨ r' = r₂ ∧ np = j := by
    rw [Finset.mem_insert, Finset.mem_singleton] at hr₂
    rcases hr₂ with rfl | rfl
    · refine .inl ⟨rfl, h₁.inj p j (hr₁.trans hj.symm) ?_⟩
      rw [hproc]
      exact (hst.used p hp).1
    · exact .inr ⟨rfl, h₁.inj np j (hr'.trans hj.symm) hfresh.pagetable⟩
  rcases hret with ⟨rfl, hcop, huse₂⟩ | ⟨rfl, hclear, hle⟩
  · refine .ite_neg (by decide) ?_
    rw [wp_bind, wp_setProc]
    have h₂ : SysInv L (({ t₁ with mem := s₂ } : Sys).setProc np fun q => { q with
        sz := (t.proc p).sz, parent := some p }) g₂ := by
      refine h₁.remap hg₂ hfr₂.bare hsub (fun j => ?_) (fun j hj => ?_) (fun j r₂ hj hr₂ => ?_)
        ⟨rfl, rfl, rfl, rfl⟩
      · by_cases hj : j = np
        · rw [hj, Sys.setProc_self]
          exact ⟨rfl, rfl⟩
        · rw [Sys.setProc_of_ne _ hj]
          exact ⟨rfl, rfl⟩
      · have hne : j ≠ np := by
          rintro rfl
          rw [hr', page_div] at hj
          exact hj (by simp)
        rw [Sys.setProc_of_ne _ hne]
      · rcases hroot j r₂ hj hr₂ with ⟨rfl, rfl⟩ | ⟨rfl, rfl⟩
        · rw [Sys.setProc_of_ne _ hpnp]
          refine ⟨?_, fun v hv => hcow.high hv⟩
          show Shape g₂ r₁ (npages (t₁.proc p).sz)
          rw [hproc]
          exact hcow.shape h₁.good hmem hs
        · rw [Sys.setProc_self]
          refine ⟨hcop.shape h₁.good hmem hs hs', fun v hv => (hcop.old v ?_).2⟩
          have hle := hs.le
          omega
    have ho₂ := h₁.others h₂ fun j hj r₂ hj₂ hm₂ => hkeep hj hj₂ hm₂
    generalize ht₂ : Sys.setProc _ np _ = t₂ at h₂ ho₂ ⊢
    have hnp₂ : (t₂.proc np).pagetable = r' * PGSIZE ∧ (t₂.proc np).trapframe = x * PGSIZE ∧
        (t₂.proc np).sz = (t.proc p).sz ∧ (t₂.proc np).parent = some p := by
      rw [← ht₂, Sys.setProc_self]
      exact ⟨hr', hx, rfl, rfl⟩
    have hmem₂ : t₂.mem = s₂ := by rw [← ht₂]; rfl
    clear ht₂
    obtain ⟨hpt₂, htf₂, hsz₂, hpar₂⟩ := hnp₂
    have hpt₂' : (t₂.proc p).pagetable = r₁ * PGSIZE := by rw [ho₂.proc p hpnp, hr₁]
    have hroot₂ : r₁ ∈ t₂.roots ∧ r' ∈ t₂.roots := by
      refine ⟨t₂.root_mem hpt₂' ?_, t₂.root_mem hpt₂ hpos'⟩
      have hl := h₁.good.space.live r₁ hmem
      exact h₁.good.rep.page.pos (by rw [hl]; simp)
    have hpages : t₂.pages np = t.pages p := by
      rw [← ho₁.pages p hpnp (hst.used p hp).1, Sys.pages, Sys.pages, hpt₂, hr₁, hmem₂]
      exact h₁.good.pages_copied hg₂ hmem hmem' hs hs' hcow hcop
    refine (h₂.forkTail (f := fun q => { q with state := .RUNNABLE })
      (hfr₂.held x _ hown (by simp)).1 (by omega) fun q => ⟨rfl, rfl, rfl⟩).mono ?_
    rintro _ t₃ ⟨rfl, h₃, ho₃, hf₃, hpg₃, hpte₃⟩
    have hpt₃ : (t₃.proc np).pagetable = r' * PGSIZE := by rw [hf₃, ← hpt₂]
    refine ⟨hnp, ⟨g₂, h₃, huse₁.trans huse₂⟩, ho₁.trans (ho₂.trans ho₃), by rw [hf₃],
      by rw [hpt₃]; exact Nat.ne_of_gt hpos', ?_, by rw [hf₃]; exact hsz₂, by rw [hf₃]; exact hpar₂,
      hpg₃.trans hpages, fun v hv => ?_⟩
    · rw [hf₃]
      show (t₂.proc np).trapframe ≠ 0
      rw [htf₂, ← hx]
      exact hfresh.trapframe
    · have hvm : v < MAXV := Nat.lt_trans (Nat.lt_of_lt_of_le hv hs.le) (by decide)
      obtain ⟨h1, h2⟩ := hcop.new v (Nat.zero_le v) (by omega)
      rw [hpt₃, hr, hpte₃ r₁ hroot₂.1 v hvm, hpte₃ r' hroot₂.2 v hvm, hparent v hvm, h1, h2]
      exact ⟨rfl, rfl⟩
  · refine .ite_pos (by decide) ?_
    rw [wp_bind]
    have h₂ : SysInv L ({ t₁ with mem := s₂ } : Sys) g₂ := by
      refine h₁.remap hg₂ hfr₂.bare hsub (fun j => ⟨rfl, rfl⟩) (fun j _ => rfl)
        (fun j r₂ hj hr₂ => ?_) ⟨rfl, rfl, rfl, rfl⟩
      rcases hroot j r₂ hj hr₂ with ⟨rfl, rfl⟩ | ⟨rfl, rfl⟩
      · refine ⟨?_, fun v hv => hcow.high hv⟩
        show Shape g₂ r₁ (npages (t₁.proc p).sz)
        rw [hproc]
        exact hcow.shape h₁.good hmem hs
      · rw [clearRange_zero] at hclear
        refine ⟨?_, fun v _ => by rw [hclear]⟩
        show Shape g₂ r' (npages (t₁.proc np).sz)
        rw [hfresh.sz]
        exact (show Shape g₂ r' 0 from hs'.congr hclear)
    refine (h₂.freeproc (p := np)).mono fun _ t₃ hpost => wp_pure.2 ?_
    have ho₂ : Others (· = np) t₁ ({ t₁ with mem := s₂ } : Sys) :=
      ⟨fun _ _ => rfl, fun j hj h0 => h₁.pages_cow h₂ rfl h0 fun r₂ hj₂ hm₂ => hkeep hj hj₂ hm₂,
        rfl, rfl⟩
    obtain ⟨g', h', ho', hu', hsp₃⟩ := hpost.undone hst.unused hnp (ho₁.trans ho₂)
    rw [hr', page_div] at hsp₁ hroot₁
    have hsp₃' : Spared {r'} ({ t₁ with mem := s₂ } : Sys) t₃ g₂ g' := by
      rw [← page_div r', ← hr']
      exact hsp₃
    refine ⟨⟨g', h', hsp₁.copied h hroot₁ hmem₀ hfr₂ hcow htab₂ (.trans (.mem ..) hsp₃')⟩, ho', hu',
      .inr ?_⟩
    have hu : g.free.length ≤ g₁.free.length + 6 := huse₁
    omega

end PbsCow

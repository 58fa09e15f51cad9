import PbsCow.Image
import PbsCow.Wait

namespace PbsCow
set_option autoImplicit true

/-- Every way the first half of `exec` can end: with nothing changed that the kernel keeps track
of, or with a new address space that no process owns yet. -/
def ImagePost (L : Layout) (S : Finset Nat) (tf : Nat) (s : Mem) (g : Ghost) (res : Option Image)
    (s' : Mem) : Prop :=
  match res with
  | none => ∃ g', Good L s' g' S ∧ Frame S ∅ s s' g g'
  | some im => ∃ r g', im.pagetable = r * PGSIZE ∧ 0 < r * PGSIZE ∧ g.own r = .free ∧
      Good L s' g' (insert r S) ∧ Bare S {r} s s' g g' ∧ Shape g' r (npages im.sz) ∧ High L g' r tf

theorem Bare.resize (h : Bare S R s s' g g') : Bare S' R s s' g g' :=
  ⟨h.pt, h.held, h.holder, h.tables⟩

theorem Good.fillImage_spec (h : Good L s g S) (hr : r ∈ S) (hs : Shape g r (npages 0))
    (hh : HighOk g r) :
    Wp (fillImage L (r * PGSIZE) ip elf argv) NoError
      (fun res s' => ∃ g', Filled L S r (npages 0) (npages res.2) s s' g g') s := by
  rw [fillImage]
  refine .bind (h.loadSegments_spec hr hs fun v hv => ?_) ?_
  · simp [npages, PGSIZE] at hv
  rintro ⟨ok, sz⟩ s₁ ⟨g₁, hf₁, _⟩
  refine .ite (fun _ => wp_pure.2 ⟨g₁, hf₁⟩) fun _ => ?_
  refine (hf₁.good.addStack_spec hr hf₁.shape (hh.congr hf₁.high)).mono ?_
  rintro res s₂ ⟨g₂, hf₂, _⟩
  exact ⟨g₂, hf₁.trans hf₂⟩

/-- Filling the new address space leaves the contents of the others alone. -/
theorem Created.fill (h : Created L S r s s₁ g g₁) (hg : Good L s g S) (hs : Shape g₁ r 0)
    (hf : Filled L (insert r S) r 0 n s₁ s₂ g₁ g₂) : Created L S r s s₂ g g₂ := by
  have hr := h.notMem hg.space
  have ha : Apart g₁ (insert r S) r := .of_empty fun w hw => hs.none w (Nat.zero_le w) hw
  obtain ⟨_, hk⟩ := hf.apart ha
  obtain ⟨hpt, hheld, hholder, htab⟩ := h.frame.bare.trans hf.bare.resize
  refine ⟨h.fresh, hf.good, hpt, fun r' hr' hR v hv hne => ?_, hheld, hholder, htab⟩
  have hrr : r' ≠ r := by simpa using hR
  have he : g₁.pt r' v = g.pt r' v := congrFun (h.frame.pt r' hR) v
  have hp := hk r' (Finset.mem_insert_of_mem hr') hrr v hv (by rwa [he])
  rw [he] at hp
  exact hp.trans (h.frame.page r' hr' hR v hv hne)

theorem Good.buildImage_spec (h : Good L s g S) (hlt : tf < 2 ^ 44) (hpos : 0 < tf * PGSIZE) :
    Wp (buildImage L (tf * PGSIZE) ip argv) NoError (ImagePost L S tf s g) s := by
  have hsame : ∃ g', Good L s g' S ∧ Frame S ∅ s s g g' := ⟨g, h, .refl _ _ _ _⟩
  rw [buildImage]
  refine .ite (fun _ => wp_pure.2 hsame) fun _ => .ite (fun _ => wp_pure.2 hsame) fun _ => ?_
  refine .bind h.procPagetable ?_
  rintro ret s₁ (⟨rfl, _, hfail⟩ | ⟨r, g₁, rfl, hr, hcr, hs, hh, _⟩)
  · exact .ite_pos rfl (wp_pure.2 hfail)
  refine .ite_neg (Nat.ne_of_gt hr) ?_
  have hmem : r ∈ insert r S := Finset.mem_insert_self r S
  refine .bind (hcr.good.fillImage_spec hmem hs (hh.highOk hlt hpos)) ?_
  rintro ⟨sp, sz⟩ s₂ ⟨g₂, hf₂⟩
  have hh₂ : High L g₂ r tf := hh.congr hf₂.high
  have hcr₂ : Created L S r s s₂ g g₂ := hcr.fill h hs hf₂
  cases sp with
  | some sp =>
    exact wp_pure.2 ⟨r, g₂, rfl, hr, hcr.fresh, hf₂.good, hcr₂.frame.bare, hf₂.shape, hh₂⟩
  | none =>
    refine .bind (hf₂.good.procFreepagetable hmem hf₂.shape hh₂ hlt) ?_
    rintro _ s₃ ⟨g₃, hg₃, hfr₃, hgone⟩
    exact wp_pure.2 ⟨g₃, hcr₂.undo h hg₃ hfr₃ hgone⟩

/-- Slot `p` has the address space `r` in place of `r₀`. -/
theorem Sys.roots_replace {t t' : Sys} {p : Slot} (hp : (t'.proc p).pagetable = r * PGSIZE)
    (hr : 0 < r * PGSIZE) (hrt : r ∉ t.roots)
    (hother : ∀ j, j ≠ p → (t'.proc j).pagetable = (t.proc j).pagetable)
    (hne : ∀ j, j ≠ p → (t.proc j).pagetable ≠ 0 → (t.proc j).pagetable / PGSIZE ≠ r₀)
    (h₀ : (t.proc p).pagetable = r₀ * PGSIZE) (hr₀ : 0 < r₀ * PGSIZE) :
    t'.roots = (insert r t.roots).erase r₀ := by
  have hrr : r ≠ r₀ := by
    rintro rfl
    exact hrt (t.root_mem h₀ hr₀)
  ext r'
  rw [Finset.mem_erase, Finset.mem_insert, t'.mem_roots]
  constructor
  · rintro ⟨j, h0, he⟩
    by_cases hj : j = p
    · rw [hj, hp, page_div] at he
      exact ⟨he ▸ hrr, .inl he.symm⟩
    · rw [hother j hj] at h0 he
      exact ⟨he ▸ hne j hj h0, .inr (t.mem_roots.2 ⟨j, h0, he⟩)⟩
  · rintro ⟨hne', rfl | hm⟩
    · exact ⟨p, by omega, by rw [hp, page_div]⟩
    · obtain ⟨j, h0, he⟩ := t.mem_roots.1 hm
      have hj : j ≠ p := by
        rintro rfl
        rw [h₀, page_div] at he
        exact hne' he.symm
      exact ⟨j, by rwa [hother j hj], by rwa [hother j hj]⟩

/-- What `exec` leaves of the ownership of pages when it gives slot `p` the address space `r`. -/
structure Replaced (r r₀ : Nat) (g g' : Ghost) : Prop where
  pt : ∀ r', r' ≠ r → r' ≠ r₀ → g'.pt r' = g.pt r'
  held : ∀ x k, g.own x = .held k → k ≠ .fresh → g'.own x = .held k
  holder : ∀ x k, g'.own x = .held k → g.own x = .held k
  tables : ∀ x r' l p, r' ≠ r → r' ≠ r₀ → (g'.own x = .table r' l p ↔ g.own x = .table r' l p)
  gone : ∀ x l p, g'.own x ≠ .table r₀ l p

theorem Bare.replaced (hb : Bare S {r} s s₁ g g₁) (hb' : Bare S' {r₀} s₂ s' g₁ g')
    (hgone : Gone r₀ g₁ g') : Replaced r r₀ g g' where
  pt r' h h₀ := (hb'.pt r' (by simpa using h₀)).trans (hb.pt r' (by simpa using h))
  held x k hk hf := (hb'.held x k (hb.held x k hk hf).1 hf).1
  holder x k hk := hb.holder x k (hb'.holder x k hk)
  tables x r' l p h h₀ :=
    (hb'.tables x r' l p (by simpa using h₀)).trans (hb.tables x r' l p (by simpa using h))
  gone := hgone.no_table

/-- `exec` commits to the new image. -/
theorem SysInv.commit {t : Sys} {p : Slot} {f : Proc → Proc} (h : SysInv L t g)
    (h₀ : (t.proc p).pagetable = r₀ * PGSIZE) (hr₀ : 0 < r₀ * PGSIZE)
    (htf : (t.proc p).trapframe = x * PGSIZE) (hx : g.own x = .held (.trapframe p))
    (hfresh : g.own r = .free) (hr : 0 < r * PGSIZE)
    (hg : Good L s' g' ((insert r t.roots).erase r₀)) (hrep : Replaced r r₀ g g')
    (hs : Shape g' r (npages (f (t.proc p)).sz)) (hh : High L g' r x)
    (hpt : (f (t.proc p)).pagetable = r * PGSIZE)
    (hf : (f (t.proc p)).trapframe = (t.proc p).trapframe) :
    SysInv L (({ t with mem := s' } : Sys).setProc p f) g' := by
  have hrt : r ∉ t.roots := by
    intro hm
    have hl := h.good.space.live r hm
    rw [Ghost.Live, hfresh] at hl
    cases hl
  have hrk : t.kernel_pagetable / PGSIZE ≠ r := by
    rintro he
    have hl := h.static.live
    rw [Ghost.Live, he, hfresh] at hl
    cases hl
  have hrk₀ := h.root_ne_kernel h₀ hr₀
  have hroots : (({ t with mem := s' } : Sys).setProc p f).roots = (insert r t.roots).erase r₀ := by
    refine Sys.roots_replace (t := t) (p := p) ?_ hr hrt (fun j hj => ?_) (fun j hj h0 => ?_) h₀ hr₀
    · rw [Sys.setProc_self, hpt]
    · rw [Sys.setProc_of_ne _ hj]
    · obtain ⟨r₁, _, hr₁, _⟩ := h.space h0
      rw [hr₁, page_div]
      exact h.root_ne h₀ hr₀ hr₁ hj
  have hown {y : Nat} {k : Holder} (hy : g.own y = .held k) : g'.own y = .held k := by
    refine hrep.held y k hy ?_
    rintro rfl
    exact h.holder y _ hy
  refine h.rebuild p (by rw [hroots]; exact hg) ?_ (fun j hj => ?_) ⟨rfl, rfl, rfl, rfl⟩
    (fun j hj r₁ hj₁ h₁ => ?_) (fun y k hy _ => hown hy) (fun y k hy => ?_) (fun j hj hj0 => ?_)
    (fun y r₁ l q hq => ?_) ?_ ?_ (hrep.pt _ hrk hrk₀)
  · rw [Sys.setProc_self]
    refine ⟨.inr ⟨x, hf.trans htf, hown hx⟩, .inr ⟨r, x, hpt, hr, hs, hh, ?_, ?_,
      .inr (hf.trans htf)⟩⟩
    · exact h.good.rep.page.lt44 (by simp [hx])
    · exact h.good.rep.page.pos (by simp [hx])
  · rw [Sys.setProc_of_ne _ hj]
    exact .refl _
  · refine hrep.pt r₁ ?_ (h.root_ne h₀ hr₀ hj₁ hj)
    rintro rfl
    exact hrt (t.root_mem hj₁ h₁)
  · by_cases hkp : k = .trapframe p
    · refine .inr ⟨hkp, ?_⟩
      subst hkp
      obtain ⟨_, hy⟩ := h.holder y _ (hrep.holder y _ hy)
      rw [Sys.setProc_self, hf]
      exact hy
    · exact .inl ⟨hrep.holder y k hy, hkp⟩
  · rw [Sys.setProc_self, hpt]
    intro he
    exact hrt (t.root_mem he.symm hr)
  · rw [hroots]
    have hne₀ : r₁ ≠ r₀ := by
      rintro rfl
      exact hrep.gone y l q hq
    by_cases hr₁ : r₁ = r
    · exact .inl (Finset.mem_erase.2 ⟨hne₀, by simp [hr₁]⟩)
    · rcases h.tables y r₁ l q ((hrep.tables y r₁ l q hr₁ hne₀).1 hq) with hm | hm
      · exact .inl (Finset.mem_erase.2 ⟨hne₀, Finset.mem_insert_of_mem hm⟩)
      · exact .inr hm
  · rw [hroots, Finset.mem_erase, Finset.mem_insert]
    rintro ⟨_, he | hm⟩
    · exact hrk he
    · exact h.kernel hm
  · exact (hrep.tables _ _ _ _ hrk hrk₀).2 h.static.live

/-- A slot in use keeps its state, and its memory is accounted for. -/
structure Stays (L : Layout) (p : Slot) (t t' : Sys) : Prop where
  inv : Inv L t'
  state : (t'.proc p).state = (t.proc p).state
  kept : Kept (fun _ => False) t t'

theorem Stays.refl (h : Inv L t) (p : Slot) : Stays L p t t := ⟨h, rfl, .of_same rfl⟩

theorem Stays.trans {t t' t'' : Sys} (h : Stays L p t t') (h' : Stays L p t' t'') :
    Stays L p t t'' :=
  ⟨h'.inv, h'.state.trans h.state, h.kept.trans h'.kept⟩

theorem Settled.setProc {t : Sys} {p : Slot} {f : Proc → Proc} (h : Settled t)
    (hp : (t.proc p).state ≠ .UNUSED) (hs : (f (t.proc p)).state = (t.proc p).state)
    (hpt : (f (t.proc p)).pagetable ≠ 0) (htf : (f (t.proc p)).trapframe ≠ 0) :
    Settled (({ t with mem := s' } : Sys).setProc p f) := by
  refine ⟨fun i hi => ?_, fun i hi => ?_, fun i => ?_⟩ <;> by_cases hip : i = p
  · subst hip
    rw [Sys.setProc_self] at hi
    exact (hp (hs.symm.trans hi)).elim
  · rw [Sys.setProc_of_ne _ hip] at hi ⊢
    exact h.unused i hi
  · subst hip
    rw [Sys.setProc_self]
    exact ⟨hpt, htf⟩
  · rw [Sys.setProc_of_ne _ hip] at hi ⊢
    exact h.used i hi
  · subst hip
    rw [Sys.setProc_self]
    exact fun hu => h.not_used i (hs.symm.trans hu)
  · rw [Sys.setProc_of_ne _ hip]
    exact h.not_used i

/-- What `exec` has done to slot `p` once it has committed to the image in address space `r`. -/
structure Committed (L : Layout) (p : Slot) (im : Image) (r : Nat) (g : Ghost) (t t' : Sys)
    (g' : Ghost) : Prop where
  inv : SysInv L t' g'
  settled : Settled t'
  proc : t'.proc = (t.setProc p fun q => { q with pagetable := im.pagetable, sz := im.sz }).proc
  pt : g'.pt r = g.pt r
  free : g.free.length ≤ g'.free.length

/-- The last part of `exec`, with the image in address space `r`. -/
theorem SysInv.commitImage {t : Sys} {p : Slot} (h : SysInv L t g) (hst : Settled t)
    (hp : (t.proc p).state ≠ .UNUSED) (him : im.pagetable = r * PGSIZE) (hr : 0 < r * PGSIZE)
    (hfresh : g.own r = .free) (hg₁ : Good L s₁ g₁ (insert r t.roots))
    (hb₁ : Bare t.roots {r} t.mem s₁ g g₁) (hs₁ : Shape g₁ r (npages im.sz))
    (hx : (t.proc p).trapframe = x * PGSIZE) (hh₁ : High L g₁ r x) (n : Nat) :
    Wp (do
      onMem (storeWord (x * PGSIZE + tfA1) (BitVec.ofNat 64 im.sp))
      PbsCow.setProc p fun q => { q with pagetable := im.pagetable, sz := im.sz }
      onMem (storeWord (x * PGSIZE + tfEpc) (BitVec.ofNat 64 im.entry))
      onMem (storeWord (x * PGSIZE + tfSp) (BitVec.ofNat 64 im.sp))
      onMem (procFreepagetable L (t.proc p).pagetable (t.proc p).sz)
      return (n : Int)) NoError
      (fun ret t' => ret = n ∧ ∃ g', Committed L p im r g₁ t t' g') { t with mem := s₁ } := by
  obtain ⟨hpt, htf⟩ := hst.used p hp
  obtain ⟨r₀, _, h₀, hmem₀, hs₀, hh₀, hlt₀, _⟩ := h.space hpt
  have hr₀ : 0 < r₀ * PGSIZE := by omega
  have hown : g.own x = .held (.trapframe p) := by
    rcases (h.slot p).trapframe with hz | ⟨y, hy, ho⟩
    · exact (htf hz).elim
    · rwa [show x = y from Nat.eq_of_mul_eq_mul_right (by decide : 0 < PGSIZE) (hx.symm.trans hy)]
  have hrt : r ∉ t.roots := by
    intro hm
    have hl := h.good.space.live r hm
    rw [Ghost.Live, hfresh] at hl
    cases hl
  have hr₀r : r₀ ∉ ({r} : Finset Nat) := by
    rw [Finset.mem_singleton]
    rintro rfl
    exact hrt hmem₀
  have hown₁ := (hb₁.held x _ hown (by simp)).1
  have e1 : x * PGSIZE + tfA1 = x * PGSIZE + 8 * 15 := rfl
  have e2 : x * PGSIZE + tfEpc = x * PGSIZE + 8 * 3 := rfl
  have e3 : x * PGSIZE + tfSp = x * PGSIZE + 8 * 6 := rfl
  simp only [wp_bind, wp_onMem, wp_setProc, storeWord, wp_modify, e1, e2, e3,
    Mem.store_slot _ x (show 15 < 512 by decide), Mem.store_slot _ x (show 3 < 512 by decide),
    Mem.store_slot _ x (show 6 < 512 by decide), Sys.setProc_mem, h₀, him]
  have hset {s : Mem} (pg : Page) (hs : Good L s g₁ (insert r t.roots)) :
      Good L (s.setPage x pg) g₁ (insert r t.roots) := hs.setPage (.inr ⟨_, hown₁⟩)
  have hs₀' : Shape g₁ r₀ (npages (t.proc p).sz) := hs₀.congr (hb₁.pt r₀ hr₀r)
  have hh₀' : High L g₁ r₀ _ := hh₀.congr fun v _ => by rw [hb₁.pt r₀ hr₀r]
  refine ((hset _ (hset _ (hset _ hg₁))).procFreepagetable (Finset.mem_insert_of_mem hmem₀) hs₀'
    hh₀' hlt₀).mono ?_
  rintro _ s₂ ⟨g₂, hg₂, hfr₂, hgone⟩
  have hrr : r ∉ ({r₀} : Finset Nat) := by
    rw [Finset.mem_singleton]
    rintro rfl
    exact hrt hmem₀
  have h₂ := h.commit (f := fun q => { q with pagetable := r * PGSIZE, sz := im.sz }) h₀ hr₀ hx hown
    hfresh hr hg₂ (hb₁.replaced hfr₂.bare hgone) (hs₁.congr (hfr₂.pt r hrr))
    (hh₁.congr fun v _ => by rw [hfr₂.pt r hrr]) rfl rfl
  refine wp_pure.2 ⟨rfl, g₂, h₂, ?_, by rw [him]; rfl, hfr₂.pt r hrr, hgone.length⟩
  exact hst.setProc (f := fun q => { q with pagetable := r * PGSIZE, sz := im.sz }) hp rfl
    (Nat.ne_of_gt hr) htf

/-- `exec` replaces the address space of its caller, or fails and keeps it. -/
theorem Inv.exec {t : Sys} {p : Slot} (h : Inv L t) (hp : (t.proc p).state ≠ .UNUSED) :
    Wp (exec L p ip argv) NoError (fun _ t' => Stays L p t t') t := by
  obtain ⟨g, hg⟩ := h.sys
  have htf := (h.settled.used p hp).2
  rcases (hg.slot p).trapframe with hz | ⟨x, hx, hown⟩
  · exact (htf hz).elim
  have hlt := hg.good.rep.page.lt44 (x := x) (by simp [hown])
  have hpos := hg.good.rep.page.pos (x := x) (by simp [hown])
  cases ip with
  | none => exact wp_pure.2 (.refl h p)
  | some ip =>
    rw [PbsCow.exec, wp_bind, wp_get]
    simp only [hx]
    rw [wp_bind, wp_onMem]
    refine (hg.good.buildImage_spec hlt hpos).mono ?_
    rintro (_ | im) s₁ hpost
    · obtain ⟨g₁, hg₁, hfr₁⟩ := hpost
      exact wp_pure.2 ⟨⟨h.settled.congr rfl, g₁, hg.memOnly hg₁ hfr₁.bare⟩, rfl, .of_same rfl⟩
    obtain ⟨r, g₁, him, hr, hfresh, hg₁, hb₁, hs₁, hh₁⟩ := hpost
    refine (hg.commitImage h.settled hp him hr hfresh hg₁ hb₁ hs₁ hx hh₁ argv.length).mono ?_
    rintro ret t' ⟨_, g', hc⟩
    refine ⟨⟨hc.settled, g', hc.inv⟩, ?_, fun j _ hj => ?_⟩
    · rw [hc.proc, Sys.setProc_self]
    · rw [hc.proc] at hj ⊢
      by_cases hjp : j = p
      · rw [hjp, Sys.setProc_self]
        exact ⟨hp, rfl⟩
      · rw [Sys.setProc_of_ne _ hjp] at hj ⊢
        exact ⟨hj, rfl⟩

end PbsCow

import PbsCow.View

namespace PbsCow
set_option autoImplicit true

theorem wp_onMem {x : Kern α} {t : Sys} :
    Wp (onMem x) E Q t ↔ Wp x E (fun a s => Q a { t with mem := s }) t.mem :=
  wp_zoom

theorem wp_setProc {t : Sys} : Wp (setProc i f) E Q t ↔ Q ⟨⟩ (t.setProc i f) := .rfl

theorem SysInv.pages_cow {t t' : Sys} (h : SysInv L t g) (h' : SysInv L t' g')
    (hp : (t'.proc j).pagetable = (t.proc j).pagetable) (h0 : (t.proc j).pagetable ≠ 0)
    (hc : ∀ r, (t.proc j).pagetable = r * PGSIZE → r ∈ t.roots → CowSame r t.mem t'.mem g g') :
    t'.pages j = t.pages j := by
  obtain ⟨r, _, hr, hmem, _⟩ := h.space h0
  have hmem' : r ∈ t'.roots := t'.mem_roots.2 ⟨j, by rwa [hp], by rw [hp, hr, page_div]⟩
  rw [Sys.pages, Sys.pages, hp, hr]
  exact h.good.pages_cow h'.good hmem hmem' (hc r hr hmem)

/-- Only the slots in `A` have been touched: the others have the same fields and the same memory. -/
structure Others (A : Slot → Prop) (t t' : Sys) : Prop where
  proc : ∀ j, ¬ A j → t'.proc j = t.proc j
  pages : ∀ j, ¬ A j → (t.proc j).pagetable ≠ 0 → t'.pages j = t.pages j
  init : t'.initproc = t.initproc
  ticks : t'.ticks = t.ticks

theorem Others.refl (A : Slot → Prop) (t : Sys) : Others A t t :=
  ⟨fun _ _ => rfl, fun _ _ _ => rfl, rfl, rfl⟩

theorem Others.trans {t t' t'' : Sys} (h : Others A t t') (h' : Others A t' t'') :
    Others A t t'' where
  proc j hj := (h'.proc j hj).trans (h.proc j hj)
  pages j hj h0 := (h'.pages j hj (by rwa [h.proc j hj])).trans (h.pages j hj h0)
  init := h'.init.trans h.init
  ticks := h'.ticks.trans h.ticks

theorem Others.mono {t t' : Sys} (h : Others A t t') (hA : ∀ j, A j → B j) : Others B t t' where
  proc j hj := h.proc j fun ha => hj (hA j ha)
  pages j hj := h.pages j fun ha => hj (hA j ha)
  init := h.init
  ticks := h.ticks

theorem Others.setProc (t : Sys) (p : Slot) (f : Proc → Proc) :
    Others (· = p) t (t.setProc p f) where
  proc j hj := t.setProc_of_ne hj
  pages j hj _ := by rw [Sys.pages, Sys.pages, t.setProc_of_ne hj, Sys.setProc_mem]
  init := rfl
  ticks := rfl

/-- A step on the memory of slot `p`, followed by an update of its fields. -/
theorem SysInv.others {t : Sys} {p : Slot} {f : Proc → Proc} (h : SysInv L t g)
    (h' : SysInv L (({ t with mem := s' } : Sys).setProc p f) g')
    (hc : ∀ j, j ≠ p → ∀ r, (t.proc j).pagetable = r * PGSIZE → r ∈ t.roots →
      CowSame r t.mem s' g g') : Others (· = p) t (({ t with mem := s' } : Sys).setProc p f) where
  proc j hj := Sys.setProc_of_ne _ hj
  pages j hj h0 := h.pages_cow h' (by rw [Sys.setProc_of_ne _ hj]) h0 (hc j hj)
  init := rfl
  ticks := rfl

theorem sameSpace_release (h : Good L s g S) (hx : g.own x = .held k) (hr : r ∈ S) :
    SameSpace r s (s.release x) g (g.setFree x) := by
  refine ⟨rfl, fun v hv hm => Function.update_of_ne ?_ _ _⟩
  intro he
  have hu := h.space.target r hr v hv hm
  rw [he, hx] at hu
  cases hu

/-- Page tables with roots outside `R`, and the kernel's own data, are as they were. -/
structure Spared (R : Finset Nat) (t t' : Sys) (g g' : Ghost) : Prop where
  static : t.SameStatic t'
  pt : ∀ r, r ∉ R → g'.pt r = g.pt r
  tables : ∀ x r l p, r ∉ R → (g'.own x = .table r l p ↔ g.own x = .table r l p)

theorem Spared.of_eq (R : Finset Nat) (hs : t.SameStatic t') (g : Ghost) : Spared R t t' g g :=
  ⟨hs, fun _ _ => rfl, fun _ _ _ _ _ => .rfl⟩

theorem Spared.setProc (R : Finset Nat) (t : Sys) (p : Slot) (f : Proc → Proc) (g : Ghost) :
    Spared R t (t.setProc p f) g g :=
  ⟨⟨rfl, rfl, rfl, rfl⟩, fun _ _ => rfl, fun _ _ _ _ _ => .rfl⟩

theorem Spared.mem (R : Finset Nat) (t : Sys) (s : Mem) (g : Ghost) :
    Spared R t { t with mem := s } g g :=
  ⟨⟨rfl, rfl, rfl, rfl⟩, fun _ _ => rfl, fun _ _ _ _ _ => .rfl⟩

theorem Spared.of_frame {t : Sys} (h : Frame S R t.mem s' g g') :
    Spared R t { t with mem := s' } g g' :=
  ⟨⟨rfl, rfl, rfl, rfl⟩, h.pt, h.tables⟩

theorem Spared.trans {t t' t'' : Sys} (h : Spared R t t' g g') (h' : Spared R t' t'' g' g'') :
    Spared R t t'' g g'' where
  static := h.static.trans h'.static
  pt r hr := (h'.pt r hr).trans (h.pt r hr)
  tables x r l p hr := (h'.tables x r l p hr).trans (h.tables x r l p hr)

theorem Spared.mono {t t' : Sys} (h : Spared R t t' g g') (hR : R ⊆ R') : Spared R' t t' g g' :=
  ⟨h.static, fun r hr => h.pt r fun hm => hr (hR hm), fun x r l p hr =>
    h.tables x r l p fun hm => hr (hR hm)⟩

/-- A slot that is not in use. -/
structure Unused (q : Proc) : Prop where
  state : q.state = .UNUSED
  pagetable : q.pagetable = 0
  trapframe : q.trapframe = 0
  sz : q.sz = 0
  parent : q.parent = none

def FreeprocPost (L : Layout) (p : Slot) (t : Sys) (g : Ghost) (t' : Sys) : Prop :=
  ∃ g', SysInv L t' g' ∧ Others (· = p) t t' ∧ Unused (t'.proc p) ∧
    g.free.length ≤ g'.free.length ∧ Spared {(t.proc p).pagetable / PGSIZE} t t' g g' ∧
    ((t.proc p).pagetable ≠ 0 → (t.proc p).trapframe ≠ 0 → g.free.length + 4 ≤ g'.free.length)

theorem SysInv.freeproc {p : Slot} (h : SysInv L t g) :
    Wp (freeproc L p) NoError (fun _ t' => FreeprocPost L p t g t') t := by
  rw [PbsCow.freeproc]
  simp only [wp_bind, wp_get]
  -- the second half, from a state in which the trapframe is gone
  have tail : ∀ t₁ g₁, SysInv L t₁ g₁ → Others (· = p) t t₁ → g.free.length ≤ g₁.free.length →
      (t₁.proc p).pagetable = (t.proc p).pagetable → (t₁.proc p).sz = (t.proc p).sz →
      (t₁.proc p).trapframe = 0 → Spared {(t.proc p).pagetable / PGSIZE} t t₁ g g₁ →
      ((t.proc p).trapframe ≠ 0 → g.free.length + 1 ≤ g₁.free.length) →
      Wp (do
        if (t.proc p).pagetable ≠ 0 then
          onMem (procFreepagetable L (t.proc p).pagetable (t.proc p).sz)
        setProc p fun q => { q with
          pagetable := 0, sz := 0, pid := 0, parent := none, chan := .none, killed := false,
          xstate := 0, state := .UNUSED }) NoError (fun _ t' => FreeprocPost L p t g t') t₁ := by
    intro t₁ g₁ h₁ ho₁ hlen hpt hsz htf hsp htaken
    refine .ite (fun h0 => ?_) fun h0 => ?_
    · rw [← hpt] at h0
      obtain ⟨r, x, hr, hmem, hs, hh, hx, _⟩ := h₁.space h0
      have hpos : 0 < r * PGSIZE := by omega
      rw [← hpt, ← hsz, hr]
      simp only [wp_bind, wp_onMem, wp_setProc]
      refine (h₁.good.procFreepagetable hmem hs hh hx).mono ?_
      rintro _ s₂ ⟨g₂, hg₂, hfr₂, hgone⟩
      have h₂ := h₁.removePagetable (f := fun q => { q with
          pagetable := 0, sz := 0, pid := 0, parent := none, chan := .none, killed := false,
          xstate := 0, state := .UNUSED }) hr hpos hg₂ hfr₂ hgone rfl rfl rfl
      refine ⟨g₂, h₂, ho₁.trans (h₁.others h₂ fun j hj r' hr' hmem' => ?_), ?_,
        hlen.trans hgone.length, hsp.trans (.trans ?_ (.setProc ..)), fun _ hx => ?_⟩
      · exact (hfr₂.same hmem' (by simpa using h₁.root_ne hr hpos hr' hj)).cowSame
      · rw [Sys.setProc_self]
        exact ⟨rfl, rfl, htf, rfl, rfl⟩
      · rw [← hpt, hr, page_div]
        exact .of_frame hfr₂
      · obtain ⟨T, hT, hthree, htables⟩ := hh.tables h₁.good.rep
        have hle := hgone.freed T hT htables
        have hle₁ := htaken hx
        omega
    · rw [not_not] at h0
      rw [wp_setProc]
      have hz : (t₁.proc p).pagetable = 0 ∧ (t₁.proc p).sz = 0 := by
        rcases (h₁.slot p).pagetable with hz | ⟨r, x, hr, hpos, _⟩
        · exact hz
        · omega
      refine ⟨g₁, h₁.sameMem (t₁.setProc_sameMem ⟨hz.2.symm, hz.1.symm, rfl⟩),
        ho₁.trans (.setProc t₁ p _), ?_, hlen, hsp.trans (.setProc ..),
        fun hx => (hx h0).elim⟩
      rw [Sys.setProc_self]
      exact ⟨rfl, rfl, htf, rfl, rfl⟩
  refine .ite (fun h0 => ?_) fun h0 => ?_
  · rcases (h.slot p).trapframe with hz | ⟨x, hx, ho⟩
    · exact (h0 hz).elim
    rw [hx]
    simp only [wp_bind, wp_onMem, wp_setProc]
    refine .of_ok (kfree_held h.good.rep ho) ?_
    have h₁ := h.freeTrapframe (f := fun q => { q with trapframe := 0 }) ho hx rfl rfl rfl
    refine tail _ _ h₁ (h.others h₁ fun j _ r _ hr => (sameSpace_release h.good ho hr).cowSame) ?_
      ?_ ?_ ?_ ⟨⟨rfl, rfl, rfl, rfl⟩, fun _ _ => rfl, fun y r l q _ => ?_⟩ fun _ => ?_
    · simp [Ghost.setFree]
    · rw [Sys.setProc_self]
    · rw [Sys.setProc_self]
    · rw [Sys.setProc_self]
    · exact g.setFree_iff (by simp) (by simp [ho]) y
    · simp [Ghost.setFree]
  · rw [not_not] at h0
    rw [wp_bind, wp_setProc]
    refine tail _ g (h.sameMem (t.setProc_sameMem ⟨rfl, rfl, h0.symm⟩)) (.setProc t p _)
      (Nat.le_refl _) ?_ ?_ ?_ (.setProc ..) fun hx => (hx h0).elim
    · rw [Sys.setProc_self]
    · rw [Sys.setProc_self]
    · rw [Sys.setProc_self]

/-- The slots are settled between operations: every slot is unused, or has its own memory. -/
structure Settled (t : Sys) : Prop where
  unused : ∀ i, (t.proc i).state = .UNUSED → Unused (t.proc i)
  used : ∀ i, (t.proc i).state ≠ .UNUSED → (t.proc i).pagetable ≠ 0 ∧ (t.proc i).trapframe ≠ 0
  not_used : ∀ i, (t.proc i).state ≠ .USED

/-- A slot as `allocproc` returns it. -/
structure Fresh (q : Proc) : Prop where
  state : q.state = .USED
  pagetable : q.pagetable ≠ 0
  trapframe : q.trapframe ≠ 0
  sz : q.sz = 0

/-- `allocproc` found no unused slot, or memory is short. -/
def AllocFailed (L : Layout) (t : Sys) (g : Ghost) (t' : Sys) : Prop :=
  ∃ g', SysInv L t' g' ∧ Others (fun j => (t.proc j).state = .UNUSED) t t' ∧
    (∀ j, (t.proc j).state = .UNUSED → Unused (t'.proc j)) ∧ Spared {0} t t' g g' ∧
    ((∀ j, (t.proc j).state ≠ .UNUSED) ∨ g.free.length ≤ 6)

def AllocprocPost (L : Layout) (t : Sys) (g : Ghost) (ret : Option Slot) (t' : Sys) : Prop :=
  match ret with
  | none => AllocFailed L t g t'
  | some np => (t.proc np).state = .UNUSED ∧ ∃ g', SysInv L t' g' ∧ Others (· = np) t t' ∧
      Fresh (t'.proc np) ∧ Uses 6 g g' ∧ Spared {(t'.proc np).pagetable / PGSIZE} t t' g g' ∧
      g.own ((t'.proc np).pagetable / PGSIZE) = .free ∧
      (t'.proc np).killed = (t.proc np).killed

/-- A slot that was taken and given back is unused again. -/
theorem FreeprocPost.undone {t t₁ : Sys} (hu : ∀ i, (t.proc i).state = .UNUSED → Unused (t.proc i))
    (hp : (t.proc p).state = .UNUSED) (ho : Others (· = p) t t₁)
    (hpost : FreeprocPost L p t₁ g₁ t') :
    ∃ g', SysInv L t' g' ∧ Others (fun j => (t.proc j).state = .UNUSED) t t' ∧
      (∀ j, (t.proc j).state = .UNUSED → Unused (t'.proc j)) ∧
      Spared {(t₁.proc p).pagetable / PGSIZE} t₁ t' g₁ g' := by
  obtain ⟨g', h', ho', hc, _, hsp, _⟩ := hpost
  have hall := ho.trans ho'
  refine ⟨g', h', hall.mono fun j hj => hj ▸ hp, fun j hj => ?_, hsp⟩
  by_cases hjp : j = p
  · rw [hjp]
    exact hc
  · rw [hall.proc j hjp]
    exact hu j hj

theorem SysInv.allocproc (h : SysInv L t g)
    (hu : ∀ i, (t.proc i).state = .UNUSED → Unused (t.proc i)) :
    Wp (allocproc L) NoError (AllocprocPost L t g) t := by
  rw [PbsCow.allocproc]
  simp only [wp_bind, wp_get]
  cases hfind : (List.finRange NPROC).find? fun p => decide ((t.proc p).state = .UNUSED) with
  | none =>
    refine wp_pure.2 ⟨g, h, .refl _ _, hu, .of_eq _ (.refl t) g, .inl fun j hj => ?_⟩
    have hno := List.find?_eq_none.1 hfind j (List.mem_finRange j)
    exact hno (decide_eq_true hj)
  | some p =>
    have hp : (t.proc p).state = .UNUSED := by simpa using List.find?_some hfind
    obtain ⟨_, hpt, htf, hsz, _⟩ := hu p hp
    simp only [allocpid, wp_bind, wp_get, wp_modify, wp_pure, wp_setProc, wp_onMem]
    -- the slot is marked `USED`; its memory is as before
    generalize ht₁ : Sys.setProc _ p _ = t₁
    have hsame : t.SameMem t₁ := by
      have hnext : t.SameMem { t with nextpid := t.nextpid + 1 } :=
        ⟨rfl, fun _ => .refl _, ⟨rfl, rfl, rfl, rfl⟩⟩
      rw [← ht₁]
      exact hnext.trans (Sys.setProc_sameMem _ ⟨rfl, rfl, rfl⟩)
    have ho₁ : Others (· = p) t t₁ := by
      have hnext : Others (· = p) t { t with nextpid := t.nextpid + 1 } :=
        ⟨fun _ _ => rfl, fun _ _ _ => rfl, rfl, rfl⟩
      rw [← ht₁]
      exact hnext.trans (.setProc _ p _)
    have hst : (t₁.proc p).state = .USED := by
      rw [← ht₁, Sys.setProc_self]
    have hk₁ : (t₁.proc p).killed = (t.proc p).killed := by
      rw [← ht₁, Sys.setProc_self]
    clear ht₁
    have h₁ := h.sameMem hsame
    have hpt₁ : (t₁.proc p).pagetable = 0 := ((hsame.proc p).2.1).trans hpt
    have htf₁ : (t₁.proc p).trapframe = 0 := ((hsame.proc p).2.2).trans htf
    have hsz₁ : (t₁.proc p).sz = 0 := ((hsame.proc p).1).trans hsz
    cases hf : g.free with
    | nil =>
      refine .of_ok (kalloc_nil (hf ▸ h₁.good.rep.page.freeRep)) (.ite_pos rfl ?_)
      rw [wp_bind]
      have h₂ := h₁.sameMem (t₁.setProc_sameMem (f := fun q => { q with trapframe := 0 })
        ⟨rfl, rfl, htf₁.symm⟩)
      refine (h₂.freeproc (p := p)).mono fun _ t₃ hpost => wp_pure.2 ?_
      obtain ⟨g', h', ho', hu', hsp⟩ := hpost.undone hu hp (ho₁.trans (.setProc t₁ p _))
      rw [Sys.setProc_self, hpt₁, Nat.zero_div] at hsp
      exact ⟨g', h', ho', hu', .trans (.of_eq _ hsame.static g) (.trans (.setProc ..) hsp),
        .inr (by simp [hf])⟩
    | cons x f =>
      have hm := (h₁.good.rep.page.managed x).1 (by simp [h₁.good.rep.free_of_cons hf])
      refine .of_ok (kalloc_cons (hf ▸ h₁.good.rep.page.freeRep))
        (.ite_neg (Nat.ne_of_gt hm.pos) ?_)
      have h₂ := h₁.takeTrapframe (p := p) (f := fun q => { q with trapframe := x * PGSIZE }) hf
        hpt₁ htf₁ hpt₁ hsz₁ rfl
      have ho₂ := ho₁.trans (h₁.others h₂ fun j _ r _ hr =>
        (sameSpace_alloc h₁.good hf hr).cowSame)
      have hsp₂ (R : Finset Nat) : Spared R t (({ t₁ with mem := t₁.mem.alloc x } : Sys).setProc p fun q =>
          { q with trapframe := x * PGSIZE }) g ((g.take x f).setOwn x (.held (.trapframe p))) :=
        ⟨hsame.static.trans ⟨rfl, rfl, rfl, rfl⟩, fun _ _ => rfl, fun y r l q _ =>
          g.take_setOwn (h₁.good.rep.free_of_cons hf) (by simp) (by simp) y⟩
      generalize ht₂ : Sys.setProc _ p _ = t₂ at h₂ ho₂ hsp₂ ⊢
      have hpt₂ : (t₂.proc p).pagetable = 0 := by rw [← ht₂, Sys.setProc_self, hpt₁]
      have htf₂ : (t₂.proc p).trapframe = x * PGSIZE := by rw [← ht₂, Sys.setProc_self]
      have hsz₂ : (t₂.proc p).sz = 0 := by rw [← ht₂, Sys.setProc_self, hsz₁]
      have hst₂ : (t₂.proc p).state = .USED := by rw [← ht₂, Sys.setProc_self, hst]
      have hk₂ : (t₂.proc p).killed = (t.proc p).killed := by rw [← ht₂, Sys.setProc_self, hk₁]
      clear ht₂
      simp only [wp_bind, wp_onMem, wp_setProc]
      refine h₂.good.procPagetable.mono ?_
      rintro ret s₃ (⟨rfl, hle, g₃, hg₃, hfr₃⟩ | ⟨r, g₃, rfl, hpos, hcr, hs, hh, huse⟩)
      · refine .ite_pos rfl ?_
        rw [wp_bind]
        have h₃ := h₂.memOnly hg₃ hfr₃.bare
        have hsm := Sys.setProc_sameMem (i := p) ({ t₂ with mem := s₃ } : Sys)
          (f := fun q => { q with pagetable := 0 }) ⟨rfl, hpt₂.symm, rfl⟩
        have h₄ := h₃.sameMem hsm
        refine (h₄.freeproc (p := p)).mono fun _ t₅ hpost => wp_pure.2 ?_
        obtain ⟨g', h', ho', hu', hsp⟩ := hpost.undone hu hp (ho₂.trans (h₂.others h₄ fun j _ r _ hmem =>
          (hfr₃.same hmem (by simp)).cowSame))
        rw [Sys.setProc_self, Nat.zero_div] at hsp
        have hsp₃ : Spared {0} t₂ { t₂ with mem := s₃ } _ g₃ :=
          .mono (.of_frame hfr₃) (by simp)
        refine ⟨g', h', ho', hu', (hsp₂ _).trans (hsp₃.trans (.trans (.setProc ..) hsp)), .inr ?_⟩
        simp only [Ghost.setOwn_free, Ghost.take_free] at hle
        rw [hf, List.length_cons]
        omega
      · refine .ite_neg (Nat.ne_of_gt hpos) ?_
        simp only [wp_get, wp_bind, wp_setProc]
        have h₃ := h₂.addPagetable (f := fun q => { q with pagetable := r * PGSIZE }) hpt₂ hcr hpos hs
          hh htf₂ (Ghost.setOwn_own_self _) rfl hsz₂ rfl
        have hne {r' : Nat} (hmem' : r' ∈ t₂.roots) : r' ∉ ({r} : Finset Nat) := by
          rw [Finset.mem_singleton]
          rintro rfl
          exact hcr.notMem h₂.good.space hmem'
        have ho₃ := h₂.others h₃ fun j _ r' _ hmem' => (hcr.frame.same hmem' (hne hmem')).cowSame
        refine wp_pure.2 ⟨hp, g₃, h₃.sameMem (Sys.setProc_sameMem _ ⟨rfl, rfl, rfl⟩),
          (ho₂.trans ho₃).trans (.setProc _ p _), ?_, ?_, ?_, ?_, ?_⟩
        · refine ⟨?_, ?_, ?_, ?_⟩ <;> rw [Sys.setProc_self, Sys.setProc_self]
          · exact hst₂
          · exact Nat.ne_of_gt hpos
          · rw [htf₂]
            exact Nat.ne_of_gt hm.pos
          · exact hsz₂
        · simp only [Uses, Ghost.setOwn_free, Ghost.take_free] at huse ⊢
          rw [hf, List.length_cons]
          omega
        · rw [Sys.setProc_self, Sys.setProc_self, page_div]
          exact (hsp₂ _).trans (.trans (.of_frame hcr.frame) (.trans (.setProc ..) (.setProc ..)))
        · rw [Sys.setProc_self, Sys.setProc_self, page_div]
          have hfresh := hcr.fresh
          by_cases hrx : r = x
          · rw [hrx]
            exact h₁.good.rep.free_of_cons hf
          · rwa [Ghost.setOwn_own _ hrx, g.take_own hrx] at hfresh
        · rw [Sys.setProc_self, Sys.setProc_self]
          exact hk₂

end PbsCow

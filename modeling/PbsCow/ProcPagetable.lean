import PbsCow.Uvmfree

namespace PbsCow
set_option autoImplicit true

def procPagetable (L : Layout) (trapframe : Nat) : Kern Nat := do
  let pagetable ← uvmcreate
  if pagetable = 0 then return 0
  if (← mappages pagetable TRAMPOLINE PGSIZE L.trampoline (PTE_R ||| PTE_X)) < 0 then
    uvmfree L pagetable 0
    return 0
  if (← mappages pagetable TRAPFRAME PGSIZE trapframe (PTE_R ||| PTE_W)) < 0 then
    uvmunmap L pagetable TRAMPOLINE 1 false
    uvmfree L pagetable 0
    return 0
  return pagetable

def procFreepagetable (L : Layout) (pagetable sz : Nat) : Kern Unit := do
  uvmunmap L pagetable TRAMPOLINE 1 false
  uvmunmap L pagetable TRAPFRAME 1 false
  uvmfree L pagetable sz

def Ghost.addRoot (g : Ghost) (x : Nat) (f : List Nat) : Ghost :=
  { g with own := Function.update g.own x (.table x 2 0), free := f }

theorem Ghost.addRoot_own (g : Ghost) (h : y ≠ x) : (g.addRoot x f).own y = g.own y :=
  Function.update_of_ne h _ _

@[simp] theorem Ghost.addRoot_own_self (g : Ghost) : (g.addRoot x f).own x = .table x 2 0 :=
  Function.update_self _ _ _

theorem TableRep.addRoot (h : TableRep ram g) (hx : g.own x = .free) (hz : ∀ i, ram' x i = 0)
    (hr : ∀ y, y ≠ x → ram' y = ram y) : TableRep ram' (g.addRoot x f) := by
  have hcases {y r l p : Nat} (hy : (g.addRoot x f).own y = .table r l p) :
      (y = x ∧ r = x ∧ l = 2 ∧ p = 0) ∨ (y ≠ x ∧ g.own y = .table r l p) := by
    by_cases hyx : y = x
    · subst hyx
      rw [g.addRoot_own_self, Owner.table.injEq] at hy
      exact .inl ⟨rfl, hy.1.symm, hy.2.1.symm, hy.2.2.symm⟩
    · rw [g.addRoot_own hyx] at hy
      exact .inr ⟨hyx, hy⟩
  have hkeep {y r l p : Nat} (hy : g.own y = .table r l p) :
      (g.addRoot x f).own y = .table r l p := by
    rw [g.addRoot_own, hy]
    rintro rfl
    simp [hx] at hy
  have hno := h.no_table_of_free hx
  constructor
  · intro y z r l p hy hz
    rcases hcases hy with ⟨rfl, rfl, _, _⟩ | ⟨_, hy⟩
    · rcases hcases hz with ⟨rfl, _⟩ | ⟨_, hz⟩
      · rfl
      · exact (hno z l p hz).elim
    · rcases hcases hz with ⟨_, hr, _, _⟩ | ⟨_, hz⟩
      · exact (hno y l p (hr ▸ hy)).elim
      · exact h.unique hy hz
  · intro y r l p hy
    rcases hcases hy with ⟨_, _, rfl, _⟩ | ⟨_, hy⟩
    · exact Nat.le_refl 2
    · exact h.level hy
  · intro y r p hy
    rcases hcases hy with ⟨rfl, rfl, _, rfl⟩ | ⟨_, hy⟩
    · exact ⟨rfl, rfl⟩
    · exact h.root hy
  · intro y r l p hy hl
    rcases hcases hy with ⟨_, _, rfl, _⟩ | ⟨_, hy⟩
    · exact absurd hl (by decide)
    · obtain ⟨z, hz⟩ := h.parent hy hl
      exact ⟨z, hkeep hz⟩
  · intro y r l p i hy hi
    rcases hcases hy with ⟨rfl, rfl, hl, _⟩ | ⟨hne, hy⟩
    · refine .inr ⟨fun q hq => ?_, hz i⟩
      rcases hcases hq with ⟨_, _, hl', _⟩ | ⟨_, hq⟩
      · omega
      · exact hno q l _ hq
    · rw [hr y hne]
      rcases h.link hy hi with ⟨q, hq, he⟩ | ⟨hq, he⟩
      · exact .inl ⟨q, hkeep hq, he⟩
      · refine .inr ⟨fun q hq' => ?_, he⟩
        rcases hcases hq' with ⟨_, hr, _⟩ | ⟨_, hq'⟩
        · exact hno y _ _ (hr ▸ hy)
        · exact hq q hq'
  · intro y r p i hy hi
    rcases hcases hy with ⟨_, _, hl, _⟩ | ⟨hne, hy⟩
    · exact absurd hl (by decide)
    · rw [hr y hne]
      exact h.leaf hy hi
  · intro r v hv
    exact h.none fun y hy => hv y (hkeep hy)

theorem TableRep.pt_of_free (h : TableRep ram g) (hx : g.own x = .free) (v : Nat) :
    g.pt x v = 0 :=
  h.none fun y => h.no_table_of_free hx y 0 _

/-- A new address space `r`, whose root page was free. -/
structure Created (L : Layout) (S : Finset Nat) (r : Nat) (s s' : Mem) (g g' : Ghost) : Prop where
  fresh : g.own r = .free
  good : Good L s' g' (insert r S)
  frame : Frame S {r} s s' g g'

theorem Created.notMem (h : Created L S r s s' g g') (hs : SpaceInv s g S) : r ∉ S := by
  intro hr
  have hl := hs.live r hr
  rw [Ghost.Live, h.fresh] at hl
  cases hl

/-- The first free page has become the empty root of a page table. -/
theorem Good.addRoot (h : Good L s g S) (hf : g.free = x :: f) :
    Good L ((s.alloc x).setPage x fun _ => 0) (g.addRoot x f) S := by
  have hfree := h.rep.free_of_cons hf
  have hne {y : Nat} (hy : g.own y ≠ .free) : y ≠ x := by
    rintro rfl
    exact hy hfree
  refine ⟨⟨(h.rep.page.alloc hf (by simp) (by simp)).setPage (by simp), ?_⟩, ?_⟩
  · exact h.rep.table.addRoot hfree (fun i => by simp [Mem.setPage]) fun y hy => by
      simp [Mem.setPage, Mem.alloc, hy]
  · refine h.space.congr (fun r hr => ?_) (fun _ _ _ _ => rfl) (fun _ _ _ _ => rfl)
      (fun y => ?_) fun y hy => ?_
    · have hl := h.space.live r hr
      exact (g.addRoot_own (hne (by rw [hl]; simp))).trans hl
    · by_cases hy : y = x
      · simp [hy, hfree]
      · rw [g.addRoot_own hy]
    · simp [Mem.setPage, Mem.alloc, hne (y := y) (by simp [hy])]

theorem Good.uvmcreate (h : Good L s g S) :
    Wp uvmcreate NoError (fun ret s' => ret = 0 ∧ s = s' ∧ g.free = [] ∨
      ∃ r g', ret = r * PGSIZE ∧ 0 < r * PGSIZE ∧ Created L S r s s' g g' ∧
        (∀ v, g'.pt r v = 0) ∧ Uses 1 g g') s := by
  rw [PbsCow.uvmcreate]
  cases hf : g.free with
  | nil =>
    exact .bind_ok (kalloc_nil (hf ▸ h.rep.page.freeRep))
      (.ite_pos rfl (wp_pure.2 (.inl ⟨rfl, rfl, rfl⟩)))
  | cons x f =>
    have hfree := h.rep.free_of_cons hf
    have hm := (h.rep.page.managed x).1 (by simp [hfree])
    have hne {y : Nat} (hy : g.own y ≠ .free) : y ≠ x := by
      rintro rfl
      exact hy hfree
    have hram {y : Nat} (hy : y ≠ x) : ((s.alloc x).setPage x fun _ => 0).ram y = s.ram y := by
      simp [Mem.setPage, Mem.alloc, hy]
    refine .bind_ok (kalloc_cons (hf ▸ h.rep.page.freeRep)) (.ite_neg (Nat.ne_of_gt hm.pos) ?_)
    simp only [memset, wp_bind, wp_modify, wp_pure, page_div, repeatByte_zero]
    have h0 (v : Nat) : (g.addRoot x f).pt x v = 0 := h.rep.table.pt_of_free hfree v
    have hgood := h.addRoot hf
    refine .inr ⟨x, g.addRoot x f, rfl, hm.pos, ⟨hfree, ⟨hgood.rep, hgood.space.insert
      g.addRoot_own_self h0⟩, ?_⟩, h0, ?_⟩
    · refine ⟨fun _ _ => rfl, fun r hr _ v hv hm => ?_, fun y k hk _ => ?_, fun y k hk => ?_,
        fun y r l p hR => ?_⟩
      · exact hram (hne (by simp [h.space.target r hr v hv hm]))
      · have hyx := hne (y := y) (by simp [hk])
        exact ⟨(g.addRoot_own hyx).trans hk, hram hyx⟩
      · by_cases hyx : y = x
        · simp [hyx] at hk
        · rwa [g.addRoot_own hyx] at hk
      · by_cases hyx : y = x
        · subst hyx
          rw [g.addRoot_own_self, hfree, Owner.table.injEq]
          simp only [Finset.mem_singleton] at hR
          simp [Ne.symm hR]
        · rw [g.addRoot_own hyx]
    · simp [Uses, Ghost.addRoot, hf]

/-- `mappages` of the trampoline or the trapframe page. -/
theorem Good.mapHigh (h : Good L s g S) (hr : g.Live r) (hv : TFV ≤ v) (hv' : v < MAXV)
    (h0 : g.pt r v = 0) :
    Wp (mappages (r * PGSIZE) (v * PGSIZE) PGSIZE (x * PGSIZE) f) NoError (fun ret s' =>
      ∃ g', Good L s' g' S ∧ Frame S {r} s s' g g' ∧ Uses 2 g g' ∧
        (ret = 0 ∧ g'.pt r = Function.update (g.pt r) v (mkPte x (f ||| PTE_V)) ∨
          ret = -1 ∧ g'.pt r = g.pt r ∧ g'.free = [])) s := by
  refine (h.rep.mappages_one hr hv' (by simp [h0])).mono ?_
  rintro ret s' ⟨g', hrep, hg, ⟨rfl, hp⟩ | ⟨rfl, hp, hempty, _⟩⟩
  · refine ⟨g', ⟨hrep, ?_⟩, hg.frame h.space, hg.uses, .inl ⟨rfl, hp⟩⟩
    have hpt (r' w : Nat) (hw : w ≠ v) : g'.pt r' w = g.pt r' w := by
      by_cases hrr : r' = r
      · rw [hrr, hp, Function.update_of_ne hw]
      · rw [hg.pt r' hrr]
    exact h.space.congr (fun r' hr' => hg.live (h.space.live r' hr'))
      (fun r' _ w hw => hpt r' w (by omega)) (fun r' _ w hw => hpt r' w (by omega)) hg.user_iff
      fun y hy => hg.count y (by simp [hy])
  · exact ⟨g', ⟨hrep, hg.spaceInv hp h.space⟩, hg.frame h.space, hg.uses, .inr ⟨rfl, hp, hempty⟩⟩

/-- The two mappings at the top of every process's address space. -/
structure High (L : Layout) (g : Ghost) (r tf : Nat) : Prop where
  trapframe : g.pt r TFV = mkPte tf (PTE_R ||| PTE_W ||| PTE_V)
  trampoline : g.pt r (TFV + 1) = mkPte (L.trampoline / PGSIZE) (PTE_R ||| PTE_X ||| PTE_V)

theorem Layout.trampoline_eq (L : Layout) : L.trampoline / PGSIZE * PGSIZE = L.trampoline :=
  Nat.div_mul_cancel (Nat.dvd_of_mod_eq_zero L.trampoline_aligned)

theorem Layout.trampoline_pos (L : Layout) : 0 < L.trampoline / PGSIZE * PGSIZE := by
  have h := L.kernbase_le
  rw [L.trampoline_eq]
  simp only [KERNBASE] at h
  omega

theorem Layout.trampoline_lt44 (L : Layout) : L.trampoline / PGSIZE < 2 ^ 44 := by
  have h2 := L.etext_le
  have h3 := L.kend_le
  have h4 : PHYSTOP < 2 ^ 44 := by decide
  exact Nat.lt_of_le_of_lt (Nat.div_le_self _ _) (by omega)

theorem High.highOk (h : High L g r tf) (htf : tf < 2 ^ 44) (hpos : 0 < tf * PGSIZE) :
    HighOk g r := by
  intro v hv hv' _
  have hcase : v = TFV ∨ v = TFV + 1 := by
    simp only [TFV, MAXV] at *
    omega
  rcases hcase with rfl | rfl
  · rw [h.trapframe, getLsbD_mkPte _ _ (by decide), getLsbD_mkPte _ _ (by decide),
      PTE2PA_mkPte htf (by decide)]
    exact ⟨by decide, by decide, Nat.ne_of_gt hpos⟩
  · rw [h.trampoline, getLsbD_mkPte _ _ (by decide), getLsbD_mkPte _ _ (by decide),
      PTE2PA_mkPte L.trampoline_lt44 (by decide)]
    exact ⟨by decide, by decide, Nat.ne_of_gt L.trampoline_pos⟩

theorem Created.extend (h : Created L S r s s' g g') (hg : Good L s'' g'' (insert r S))
    (hfr : Frame (insert r S) {r} s' s'' g' g'') : Created L S r s s'' g g'' where
  fresh := h.fresh
  good := hg
  frame := h.frame.trans (hfr.subset (Finset.subset_insert r S)) fun _ h _ => h

/-- Freeing a new address space again leaves no trace of it. -/
theorem Bare.undo (hb : Bare S {r} s s' g g') (hfresh : g.own r = .free) (hg : Rep L s g)
    (hg' : Rep L s' g') (hgone : ∀ y l p, g'.own y ≠ .table r l p) : Bare S ∅ s s' g g' := by
  refine ⟨fun r' _ => ?_, hb.held, hb.holder, fun x r' l p _ => ?_⟩
  · by_cases hrr : r' = r
    · subst hrr
      funext v
      rw [hg'.table.none fun x => hgone x 0 _, hg.table.pt_of_free hfresh]
    · exact hb.pt r' (by simpa using hrr)
  · by_cases hrr : r' = r
    · subst hrr
      exact iff_of_false (hgone x l p) (hg.table.no_table_of_free hfresh x l p)
    · exact hb.tables x r' l p (by simpa using hrr)

theorem Created.undo (h : Created L S r s s' g g') (hgood : Good L s g S)
    (hg : Good L s'' g'' ((insert r S).erase r)) (hfr : Frame (insert r S) {r} s' s'' g' g'')
    (hgone : Gone r g' g'') : Good L s'' g'' S ∧ Frame S ∅ s s'' g g'' := by
  have hr := h.notMem hgood.space
  rw [Finset.erase_insert hr] at hg
  have hf := h.frame.trans (hfr.subset (Finset.subset_insert r S)) fun _ h _ => h
  obtain ⟨hpt, hheld, hholder, htab⟩ :=
    hf.bare.undo h.fresh hgood.rep hg.rep hgone.no_table
  refine ⟨hg, hpt, fun r' hr' _ => hf.page r' hr' ?_, hheld, hholder, htab⟩
  rw [Finset.mem_singleton]
  rintro rfl
  exact hr hr'

theorem uvmunmap_trampoline (h : Good L s g S) (hr : g.Live r)
    (ht : g.pt r (TFV + 1) = mkPte (L.trampoline / PGSIZE) (PTE_R ||| PTE_X ||| PTE_V)) :
    Wp (uvmunmap L (r * PGSIZE) TRAMPOLINE 1 false) NoError (fun _ s' =>
      ∃ g', Good L s' g' S ∧ Frame S {r} s s' g g' ∧ g' = g.setPte r (TFV + 1) 0) s := by
  have hun := h.uvmunmap_high (v := TFV + 1) hr (by omega) (by decide)
    (by rw [ht, flag_V, getLsbD_mkPte _ _ (by decide)]; decide)
    (by rw [ht, PTE_FLAGS_mkPte L.trampoline_lt44 (by decide)]; decide)
  refine hun.mono ?_
  rintro _ s' ⟨g', hg, hfr, he, _⟩
  exact ⟨g', hg, hfr, he⟩

theorem uvmunmap_trapframe (h : Good L s g S) (hr : g.Live r) (htf : tf < 2 ^ 44)
    (ht : g.pt r TFV = mkPte tf (PTE_R ||| PTE_W ||| PTE_V)) :
    Wp (uvmunmap L (r * PGSIZE) TRAPFRAME 1 false) NoError (fun _ s' =>
      ∃ g', Good L s' g' S ∧ Frame S {r} s s' g g' ∧ g' = g.setPte r TFV 0) s := by
  have hun := h.uvmunmap_high (v := TFV) hr (Nat.le_refl _) (by decide)
    (by rw [ht, flag_V, getLsbD_mkPte _ _ (by decide)]; decide)
    (by rw [ht, PTE_FLAGS_mkPte htf (by decide)]; decide)
  refine hun.mono ?_
  rintro _ s' ⟨g', hg, hfr, he, _⟩
  exact ⟨g', hg, hfr, he⟩

theorem Shape.empty (h0 : ∀ v, v < TFV → g.pt r v = 0) : Shape g r (npages 0) := by
  refine ⟨fun w hw => ?_, fun w _ hw => h0 w hw, by simp [npages, PGSIZE]⟩
  simp [npages, PGSIZE] at hw

/-- Every way `proc_pagetable` can end; it fails only when memory is short. -/
def PagetablePost (L : Layout) (S : Finset Nat) (tf : Nat) (s : Mem) (g : Ghost) (ret : Nat)
    (s' : Mem) : Prop :=
  (ret = 0 ∧ g.free.length ≤ 5 ∧ ∃ g', Good L s' g' S ∧ Frame S ∅ s s' g g') ∨
  ∃ r g', ret = r * PGSIZE ∧ 0 < r * PGSIZE ∧ Created L S r s s' g g' ∧ Shape g' r (npages 0) ∧
    High L g' r tf ∧ Uses 5 g g'

theorem Good.procPagetable (h : Good L s g S) :
    Wp (procPagetable L (tf * PGSIZE)) NoError (PagetablePost L S tf s g) s := by
  rw [PbsCow.procPagetable]
  refine .bind h.uvmcreate ?_
  rintro ret s₁ (⟨rfl, rfl, hempty⟩ | ⟨r, g₁, rfl, hpos, hcr₁, hz₁, hu₁⟩)
  · refine .ite_pos rfl (wp_pure.2 (.inl ⟨rfl, by simp [hempty], g, h, ?_⟩))
    exact .refl _ _ _ _
  refine .ite_neg (Nat.ne_of_gt hpos) ?_
  have hmem : r ∈ insert r S := Finset.mem_insert_self r S
  have hl₁ := hcr₁.good.space.live r hmem
  rw [← L.trampoline_eq]
  refine .bind (hcr₁.good.mapHigh (v := TFV + 1) hl₁ (by omega) (by decide) (hz₁ _)) ?_
  rintro ret s₂ ⟨g₂, hg₂, hfr₂, hu₂, ⟨rfl, hp₂⟩ | ⟨rfl, hp₂, hempty⟩⟩
  · refine .ite_neg (by decide) ?_
    have hcr₂ := hcr₁.extend hg₂ hfr₂
    have hz₂ (v : Nat) (hv : v ≠ TFV + 1) : g₂.pt r v = 0 := by
      rw [hp₂, Function.update_of_ne hv, hz₁]
    refine .bind (hg₂.mapHigh (v := TFV) (hg₂.space.live r hmem) (Nat.le_refl _) (by decide)
      (hz₂ _ (by omega))) ?_
    rintro ret s₃ ⟨g₃, hg₃, hfr₃, hu₃, ⟨rfl, hp₃⟩ | ⟨rfl, hp₃, hempty⟩⟩
    · refine .ite_neg (by decide) (wp_pure.2 (.inr ⟨r, g₃, rfl, hpos, hcr₂.extend hg₃ hfr₃,
        .empty fun v hv => ?_, ⟨?_, ?_⟩, ?_⟩))
      · rw [hp₃, Function.update_of_ne (by omega), hz₂ v (by omega)]
      · rw [hp₃, Function.update_self]
      · rw [hp₃, Function.update_of_ne (by omega), hp₂, Function.update_self]
      · simp only [Uses] at *
        omega
    · -- the trapframe's slot lies in the page-table page just made, but the code undoes it all
      refine .ite_pos (by decide) ?_
      have ht : g₃.pt r (TFV + 1) =
          mkPte (L.trampoline / PGSIZE) (PTE_R ||| PTE_X ||| PTE_V) := by
        rw [hp₃, hp₂, Function.update_self]
      refine .bind (uvmunmap_trampoline hg₃ (hg₃.space.live r hmem) ht) ?_
      rintro _ s₄ ⟨g₄, hg₄, hfr₄, he₄⟩
      have hz₄ (v : Nat) : g₄.pt r v = 0 := by
        rw [he₄, Ghost.setPte_pt]
        split
        · rfl
        · next hv => rw [hp₃, hz₂ v fun he => hv ⟨rfl, he⟩]
      refine .bind (hg₄.uvmfree hmem (.empty fun v _ => hz₄ v) fun v _ => hz₄ v) ?_
      rintro _ s₅ ⟨g₅, hg₅, hfr₅, hgone⟩
      have hcr := (hcr₂.extend hg₃ hfr₃).extend hg₄ hfr₄
      refine wp_pure.2 (.inl ⟨rfl, ?_, g₅, hcr.undo h hg₅ hfr₅ hgone⟩)
      have hempty : g₃.free.length = 0 := by simp [hempty]
      simp only [Uses] at *
      omega
  · refine .ite_pos (by decide) ?_
    have hcr₂ := hcr₁.extend hg₂ hfr₂
    have hz₂ (v : Nat) : g₂.pt r v = 0 := by rw [hp₂, hz₁]
    refine .bind (hg₂.uvmfree hmem (.empty fun v _ => hz₂ v) fun v _ => hz₂ v) ?_
    rintro _ s₃ ⟨g₃, hg₃, hfr₃, hgone⟩
    refine wp_pure.2 (.inl ⟨rfl, ?_, g₃, hcr₂.undo h hg₃ hfr₃ hgone⟩)
    have hempty : g₂.free.length = 0 := by simp [hempty]
    simp only [Uses] at *
    omega

theorem Good.procFreepagetable (h : Good L s g S) (hr : r ∈ S) (hs : Shape g r (npages sz))
    (hh : High L g r tf) (htf : tf < 2 ^ 44) :
    Wp (procFreepagetable L (r * PGSIZE) sz) NoError (fun _ s' => ∃ g',
      Good L s' g' (S.erase r) ∧ Frame S {r} s s' g g' ∧ Gone r g g') s := by
  rw [PbsCow.procFreepagetable]
  refine .bind (uvmunmap_trampoline h (h.space.live r hr) hh.trampoline) ?_
  rintro _ s₁ ⟨g₁, hg₁, hfr₁, he₁⟩
  have ht : g₁.pt r TFV = mkPte tf (PTE_R ||| PTE_W ||| PTE_V) := by
    rw [he₁, Ghost.setPte_pt_of_ne _ (by omega), hh.trapframe]
  refine .bind (uvmunmap_trapframe hg₁ (hg₁.space.live r hr) htf ht) ?_
  rintro _ s₂ ⟨g₂, hg₂, hfr₂, he₂⟩
  have hlow (v : Nat) (hv : v < TFV) : g₂.pt r v = g.pt r v := by
    rw [he₂, he₁, Ghost.setPte_pt_of_ne _ (by omega), Ghost.setPte_pt_of_ne _ (by omega)]
  have hhigh (v : Nat) (hv : TFV ≤ v) : g₂.pt r v = 0 := by
    by_cases h1 : v < MAXV
    · have hcase : v = TFV ∨ v = TFV + 1 := by
        simp only [TFV, MAXV] at *
        omega
      rcases hcase with rfl | rfl
      · rw [he₂, Ghost.setPte_pt_self]
      · rw [he₂, Ghost.setPte_pt_of_ne _ (by omega), he₁, Ghost.setPte_pt_self]
    · exact hg₂.space.high r hr v (by omega)
  have hs₂ : Shape g₂ r (npages sz) := by
    refine ⟨fun w hw => ?_, fun w hw hw' => ?_, hs.le⟩
    · rw [hlow w (Nat.lt_of_lt_of_le hw hs.le)]
      exact hs.mapped w hw
    · rw [hlow w hw']
      exact hs.none w hw hw'
  refine (hg₂.uvmfree hr hs₂ hhigh).mono ?_
  rintro _ s₃ ⟨g₃, hg₃, hfr₃, hgone⟩
  have hfree : g₂.free = g.free ∧ g₂.own = g.own := by
    rw [he₂, he₁]
    exact ⟨rfl, rfl⟩
  refine ⟨g₃, hg₃, (hfr₁.trans hfr₂ fun _ h _ => h).trans hfr₃ fun _ h _ => h, hgone.no_table, ?_⟩
  rw [← hfree.1, ← hfree.2]
  exact hgone.freed

/-- An address space has three page-table pages at least: those on the way to the trapframe. -/
theorem High.tables (hh : High L g r tf) (h : Rep L s g) :
    ∃ T : List Nat, T.Nodup ∧ T.length = 3 ∧ ∀ y ∈ T, ∃ l p, g.own y = .table r l p := by
  have hne : g.pt r TFV ≠ 0 := by
    intro h0
    have hv := congrArg (fun e => e.getLsbD 0) hh.trapframe
    rw [h0] at hv
    simp only [getLsbD_mkPte _ _ (show 0 < 10 by decide)] at hv
    exact absurd hv (by decide)
  obtain ⟨x, hx⟩ : ∃ x, g.own x = .table r 0 (TFV / 512) := by
    by_contra hno
    exact hne (h.table.none fun q hq => hno ⟨q, hq⟩)
  obtain ⟨y, hy⟩ := h.table.parent hx (by decide)
  obtain ⟨z, hz⟩ := h.table.parent hy (by decide)
  have hxy : x ≠ y := by
    rintro rfl
    rw [hx] at hy
    cases hy
  have hxz : x ≠ z := by
    rintro rfl
    rw [hx] at hz
    cases hz
  have hyz : y ≠ z := by
    rintro rfl
    rw [hy] at hz
    cases hz
  refine ⟨[x, y, z], by simp [hxy, hxz, hyz], rfl, ?_⟩
  simp only [List.mem_cons, List.not_mem_nil, or_false]
  rintro w (rfl | rfl | rfl)
  · exact ⟨_, _, hx⟩
  · exact ⟨_, _, hy⟩
  · exact ⟨_, _, hz⟩

end PbsCow

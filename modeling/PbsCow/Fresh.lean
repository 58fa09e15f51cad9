import PbsCow.Unmap

namespace PbsCow
set_option autoImplicit true

def Ghost.take (g : Ghost) (x : Nat) (f : List Nat) : Ghost :=
  { g with own := Function.update g.own x (.held .fresh), free := f }

theorem Ghost.take_own (g : Ghost) (h : y ≠ x) : (g.take x f).own y = g.own y :=
  Function.update_of_ne h _ _

@[simp] theorem Ghost.take_own_self (g : Ghost) : (g.take x f).own x = .held .fresh :=
  Function.update_self _ _ _

@[simp] theorem Ghost.take_pt (g : Ghost) : (g.take x f).pt = g.pt := rfl

@[simp] theorem Ghost.take_free (g : Ghost) : (g.take x f).free = f := rfl

theorem Rep.free_of_cons (h : Rep L s g) (hf : g.free = x :: f) : g.own x = .free :=
  (h.page.mem_free x).1 (by simp [hf])

/-- `kalloc` hands out a page nobody uses; `p` is what its caller then fills it with. -/
theorem Good.take (h : Good L s g S) (hf : g.free = x :: f) (p : Page) :
    Good L ((s.alloc x).setPage x p) (g.take x f) S := by
  have hfree := h.rep.free_of_cons hf
  have hne {y : Nat} (hy : g.own y ≠ .free) : y ≠ x := by
    rintro rfl
    exact hy hfree
  refine ⟨⟨(h.rep.page.alloc hf (by simp) (by simp)).setPage (by simp), ?_⟩, ?_⟩
  · refine h.rep.table.congr (fun y r l q => ?_) rfl fun y r l q hy => ?_
    · by_cases hy : y = x
      · simp [hy, hfree]
      · rw [g.take_own hy]
    · have hyx := hne (y := y) (by simp [hy])
      simp [Mem.setPage, Mem.alloc, hyx]
  · refine h.space.congr (fun r hr => ?_) (fun _ _ _ _ => rfl) (fun _ _ _ _ => rfl)
      (fun y => ?_) fun y hy => ?_
    · have hl := h.space.live r hr
      exact (g.take_own (hne (by rw [hl]; simp))).trans hl
    · by_cases hy : y = x
      · simp [hy, hfree]
      · rw [g.take_own hy]
    · have hyx := hne (y := y) (by simp [hy])
      simp [Mem.setPage, Mem.alloc, hyx]

/-- The frame of an operation that started by taking page `x`, and either put it to use in the
address spaces of `R` or gave it back. -/
theorem Frame.of_take (h : SpaceInv s g S) (hfree : g.own x = .free)
    (hf : Frame S R ((s.alloc x).setPage x p) s' (g.take x f) g')
    (hx : ∀ k, g'.own x ≠ .held k) : Frame S R s s' g g' := by
  have hne {y : Nat} (hy : g.own y ≠ .free) : y ≠ x := by
    rintro rfl
    exact hy hfree
  have hram {y : Nat} (hy : y ≠ x) : ((s.alloc x).setPage x p).ram y = s.ram y := by
    simp [Mem.setPage, Mem.alloc, hy]
  refine ⟨hf.pt, fun r hr hR v hv hm => ?_, fun y k hk hfr => ?_, fun y k hk => ?_,
    fun y r l q hR => ?_⟩
  · have hu := h.target r hr v hv hm
    exact (hf.page r hr hR v hv hm).trans (hram (hne (by simp [hu])))
  · have hyx := hne (y := y) (by simp [hk])
    obtain ⟨h1, h2⟩ := hf.held y k ((g.take_own hyx).trans hk) hfr
    exact ⟨h1, h2.trans (hram hyx)⟩
  · have hyx : y ≠ x := by
      rintro rfl
      exact hx k hk
    rw [← g.take_own hyx (f := f)]
    exact hf.holder y k hk
  · rw [hf.tables y r l q hR]
    by_cases hy : y = x
    · simp [hy, hfree]
    · rw [g.take_own hy]

def Ghost.setFree (g : Ghost) (x : Nat) : Ghost :=
  { g with own := Function.update g.own x .free, free := x :: g.free }

theorem Ghost.setFree_own (g : Ghost) (h : y ≠ x) : (g.setFree x).own y = g.own y :=
  Function.update_of_ne h _ _

@[simp] theorem Ghost.setFree_own_self (g : Ghost) : (g.setFree x).own x = .free :=
  Function.update_self _ _ _

theorem Ghost.take_setOwn (g : Ghost) (hfree : g.own x = .free) (ho : o ≠ .held k) (ho' : o ≠ .free)
    (y : Nat) : ((g.take x f).setOwn x (.held k)).own y = o ↔ g.own y = o := by
  by_cases hy : y = x
  · subst hy
    rw [Ghost.setOwn_own_self, hfree]
    exact iff_of_false ho.symm ho'.symm
  · rw [Ghost.setOwn_own _ hy, g.take_own hy]

theorem Ghost.take_setOwn_held (g : Ghost) (y : Nat) :
    ((g.take x f).setOwn x (.held k)).own y = .held k ↔ y = x ∨ g.own y = .held k := by
  by_cases hy : y = x
  · simp [hy]
  · rw [Ghost.setOwn_own _ hy, g.take_own hy]
    simp [hy]

theorem Ghost.setFree_iff (g : Ghost) (ho : o ≠ .free) (hx : g.own x ≠ o) (y : Nat) :
    (g.setFree x).own y = o ↔ g.own y = o := by
  by_cases hy : y = x
  · subst hy
    rw [Ghost.setFree_own_self]
    exact iff_of_false ho.symm hx
  · rw [g.setFree_own hy]

theorem Ghost.setFree_held (g : Ghost) (y : Nat) :
    (g.setFree x).own y = .held k ↔ y ≠ x ∧ g.own y = .held k := by
  by_cases hy : y = x
  · simp [hy]
  · rw [g.setFree_own hy]
    simp [hy]

/-- `kfree` of a page held by the kernel. -/
theorem Good.release (h : Good L s g S) (hx : g.own x = .held k) :
    Good L (s.release x) (g.setFree x) S := by
  have hne {y : Nat} (hy : ∀ k, g.own y ≠ .held k) : y ≠ x := by
    rintro rfl
    exact hy k hx
  refine ⟨⟨h.rep.page.release (by simp [hx]) (by simp [hx]), ?_⟩, ?_⟩
  · refine h.rep.table.congr (fun y r l q => ?_) rfl fun y r l q hy => ?_
    · by_cases hy : y = x
      · simp [hy, hx]
      · rw [g.setFree_own hy]
    · have hyx := hne (y := y) (by simp [hy])
      simp [Mem.release, hyx]
  · refine h.space.congr (fun r hr => ?_) (fun _ _ _ _ => rfl) (fun _ _ _ _ => rfl)
      (fun y => ?_) fun y hy => ?_
    · have hl := h.space.live r hr
      exact (g.setFree_own (hne (by rw [hl]; simp))).trans hl
    · by_cases hy : y = x
      · simp [hy, hx]
      · rw [g.setFree_own hy]
    · have hyx := hne (y := y) (by simp [hy])
      simp [Mem.release, hyx]

theorem kfree_held (h : Rep L s g) (hx : g.own x = .held k) :
    kfree L (x * PGSIZE) s = .ok ((), s.release x) := by
  have h1 := h.page.count_held x k hx
  have he := kfree_eq ((h.page.managed x).1 (by simp [hx])) h1.ge
  rwa [Mem.drop, if_pos h1] at he

/-- `mappages` has put the fresh page `x` into the empty slot `v` of the address space `r`. -/
theorem Good.mapped (h : Good L s g S) (hr : r ∈ S) (hv : v < TFV) (h0 : g.pt r v = 0)
    (hx : g.own x = .held .fresh) (hf : UserFlags f) (hg : Grow r V k s s' g g')
    (hrep : Rep L s' g') (hp : g'.pt r = Function.update (g.pt r) v (mkPte x f)) :
    Good L s' (g'.setOwn x .user) S := by
  have hx' : g'.own x = .held .fresh := (hg.keep x (by simp [hx])).trans hx
  have hlt := h.rep.page.lt44 (x := x) (by simp [hx])
  have hm := h.space.mapFresh hr hv h0 hx hlt (h.rep.page.count_held x _ hx) hf
  refine ⟨⟨hrep.page.retag hx' (.inl rfl), ?_⟩, ?_⟩
  · refine hrep.table.congr (fun y r l q => ?_) rfl fun _ _ _ _ _ => rfl
    by_cases hy : y = x
    · simp [hy, hx']
    · rw [g'.setOwn_own hy]
  · have hpt (r' : Nat) : g'.pt r' = ((g.setOwn x .user).setPte r v (mkPte x f)).pt r' := by
      by_cases hrr : r' = r
      · rw [hrr, hp, Ghost.setPte_pt_same, Ghost.setOwn_pt]
      · rw [hg.pt r' hrr, Ghost.setPte_pt_root _ hrr]
        rfl
    refine hm.congr (fun r' hr' => ?_) (fun r' _ w _ => by rw [Ghost.setOwn_pt, hpt])
      (fun r' _ w _ => by rw [Ghost.setOwn_pt, hpt]) (fun y => ?_) fun y hy => ?_
    · exact g'.setOwn_live (hg.live (h.space.live r' hr')) (by simp [hx'])
    · by_cases hy : y = x
      · subst hy
        simp
      · rw [g'.setOwn_own hy, Ghost.setPte_own, g.setOwn_own hy]
        exact hg.user_iff y
    · by_cases hyx : y = x
      · rw [hyx]
        exact hg.count x (by simp [hx])
      · rw [Ghost.setPte_own, g.setOwn_own hyx] at hy
        exact hg.count y (by simp [hy])

theorem Frame.release (h : SpaceInv s g S) (hx : g.own x = .held .fresh) :
    Frame S R s (s.release x) g (g.setFree x) := by
  have hram {y : Nat} (hy : y ≠ x) : (s.release x).ram y = s.ram y := Function.update_of_ne hy _ _
  refine ⟨fun _ _ => rfl, fun r hr _ v hv hm => hram ?_, fun y k hk hf => ?_, fun y k hk => ?_,
    fun y r l q _ => ?_⟩
  · intro he
    have hu := h.target r hr v hv hm
    simp [he, hx] at hu
  · have hyx : y ≠ x := by
      rintro rfl
      rw [hx, Owner.held.injEq] at hk
      exact hf hk.symm
    exact ⟨(g.setFree_own hyx).trans hk, hram hyx⟩
  · by_cases hyx : y = x
    · simp [hyx] at hk
    · rwa [g.setFree_own hyx] at hk
  · by_cases hyx : y = x
    · simp [hyx, hx]
    · rw [g.setFree_own hyx]

/-- At most `k` pages have left the free list. -/
def Uses (k : Nat) (g g' : Ghost) : Prop := g.free.length ≤ g'.free.length + k

theorem Uses.trans (h : Uses k g g') (h' : Uses k' g' g'') : Uses (k + k') g g'' := by
  simp only [Uses] at *
  omega

theorem Grow.uses (h : Grow r V k s s' g g') : Uses k g g' := by
  obtain ⟨t, ht, hk⟩ := h.free
  simp only [Uses, ht, List.length_append]
  omega

/-- The pages in use by processes or held by the kernel keep their contents. -/
def SameData (s s' : Mem) (g : Ghost) : Prop :=
  ∀ y, g.own y = .user ∨ (∃ k, g.own y = .held k) → s'.ram y = s.ram y

theorem Grow.sameData (hg : Grow r V k s s' g g') : SameData s s' g := by
  rintro y (hy | ⟨k, hy⟩)
  · exact hg.ram y (by simp [hy]) (by simp [hy])
  · exact hg.ram y (by simp [hy]) (by simp [hy])

/-- `mappages` of a page that its caller has just allocated and filled. -/
theorem Good.mapHeld (h : Good L s g S) (hr : r ∈ S) (hv : v < TFV) (h0 : g.pt r v = 0)
    (hx : g.own x = .held .fresh) (hf : UserFlags (f ||| PTE_V)) :
    Wp (mappages (r * PGSIZE) (v * PGSIZE) PGSIZE (x * PGSIZE) f) NoError (fun ret s' =>
      ∃ g', Good L s' g' S ∧ Frame S {r} s s' g g' ∧ SameData s s' g ∧ Uses 2 g g' ∧
        (ret = 0 ∧ g'.pt r = Function.update (g.pt r) v (mkPte x (f ||| PTE_V)) ∧
            g'.own x = .user ∨
          ret = -1 ∧ g'.pt r = g.pt r ∧ g'.free = [] ∧ g'.own x = .held .fresh ∧
            ∀ q, g.own q ≠ .table r 0 (v / 512))) s := by
  have hlive := h.space.live r hr
  have hlt : v < 67108864 := Nat.lt_trans hv (by decide)
  refine (h.rep.mappages_one hlive hlt (by simp [h0])).mono ?_
  rintro ret s' ⟨g', hrep, hg, hret⟩
  have hx' : g'.own x = .held .fresh := (hg.keep x (by simp [hx])).trans hx
  have hfr := hg.frame h.space
  rcases hret with ⟨rfl, hp⟩ | ⟨rfl, hp, hfree, hnone⟩
  · refine ⟨g'.setOwn x .user, h.mapped hr hv h0 hx hf hg hrep hp, ?_, hg.sameData, hg.uses,
      .inl ⟨rfl, hp, g'.setOwn_own_self⟩⟩
    refine ⟨hfr.pt, hfr.page, fun y k hk hne => ?_, fun y k hk => ?_, fun y r l q hR => ?_⟩
    · have hyx : y ≠ x := by
        rintro rfl
        rw [hx, Owner.held.injEq] at hk
        exact hne hk.symm
      rw [g'.setOwn_own hyx]
      exact hfr.held y k hk hne
    · by_cases hyx : y = x
      · simp [hyx] at hk
      · rw [g'.setOwn_own hyx] at hk
        exact hfr.holder y k hk
    · by_cases hyx : y = x
      · simp [hyx, hx]
      · rw [g'.setOwn_own hyx]
        exact hfr.tables y r l q hR
  · exact ⟨g', ⟨hrep, hg.spaceInv hp h.space⟩, hfr, hg.sameData, hg.uses,
      .inr ⟨rfl, hp, hfree, hx', hnone⟩⟩

end PbsCow

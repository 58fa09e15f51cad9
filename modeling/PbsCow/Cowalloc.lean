import PbsCow.Uvmcopy

namespace PbsCow
set_option autoImplicit true

/-- The flags that `cowalloc` gives to the private copy. -/
def uncowFlags (f : Word) : Word := (f &&& ~~~PTE_COW) ||| PTE_W

theorem getLsbD_uncowFlags (f : Word) (hi : i < 64) :
    (uncowFlags f).getLsbD i = ((f.getLsbD i && i != 8) || i == 2) := by
  have hb : (~~~PTE_COW).getLsbD i = (i != 8) ∧ PTE_W.getLsbD i = (i == 2) := by
    have h : ∀ i : Fin 64, (~~~PTE_COW).getLsbD i.1 = (i.1 != 8) ∧ PTE_W.getLsbD i.1 = (i.1 == 2) := by
      decide
    exact h ⟨i, hi⟩
  rw [uncowFlags, BitVec.getLsbD_or, BitVec.getLsbD_and, hb.1, hb.2]

theorem UserFlags.uncow (h : UserFlags f) : UserFlags (uncowFlags f) where
  lt := toNat_or_lt (toNat_and_lt h.lt) (by decide)
  valid := by rw [getLsbD_uncowFlags f (by decide), h.valid]; rfl
  readable := by rw [getLsbD_uncowFlags f (by decide), h.readable]; rfl
  exclusive _ := by rw [getLsbD_uncowFlags f (by decide)]; simp

/-- The trapframe and trampoline mappings are neither COW nor user accessible. -/
def HighOk (g : Ghost) (r : Nat) : Prop :=
  ∀ v, TFV ≤ v → v < MAXV → g.pt r v ≠ 0 →
    (g.pt r v).getLsbD 8 = false ∧ (g.pt r v).getLsbD 4 = false ∧ PTE2PA (g.pt r v) ≠ 0

/-- Page `v` of the address space `r` has moved to a private, writable copy. -/
structure Unshared (r v : Nat) (s s' : Mem) (g g' : Ghost) : Prop where
  copy : ∃ x, x < 2 ^ 44 ∧ s'.ram x = s.ram (ppn (g.pt r v)) ∧
    g'.pt r = Function.update (g.pt r) v (mkPte x (uncowFlags (PTE_FLAGS (g.pt r v))))
  keep : ∀ w, w < TFV → w ≠ v → g.pt r w ≠ 0 → s'.ram (ppn (g.pt r w)) = s.ram (ppn (g.pt r w))

theorem PGROUNDUP_page (hv : v ≤ TFV) : PGROUNDUP (v * PGSIZE) = v * PGSIZE := by
  rw [PGROUNDUP_npages (add_le_of_npages (by rwa [npages_page])), npages_page]

theorem Good.pos (h : Good L s g S) (hr : r ∈ S) (hv : v < TFV) (hne : g.pt r v ≠ 0) :
    PTE2PA (g.pt r v) ≠ 0 := by
  rw [PTE2PA_eq]
  exact Nat.ne_of_gt (h.rep.page.pos (by simp [h.space.target r hr v hv hne]))

/-- The copying branch of `cowalloc`, with `x` the page that `kalloc` returned. -/
theorem Good.unshare (h : Good L s g S) (hr : r ∈ S) (hv : v < TFV) (hne : g.pt r v ≠ 0)
    (hf : g.free = x :: f) :
    Wp (do
      uvmunmap L (r * PGSIZE) (v * PGSIZE) 1 true
      let _ ← mappages (r * PGSIZE) (v * PGSIZE) PGSIZE (x * PGSIZE)
        (uncowFlags (PTE_FLAGS (g.pt r v)))
      return (0 : Int)) NoError (fun ret s' => ∃ g', Good L s' g' S ∧ Frame S {r} s s' g g' ∧
        ret = 0 ∧ Unshared r v s s' g g')
      ((s.alloc x).setPage x (s.ram (ppn (g.pt r v)))) := by
  have hfree := h.rep.free_of_cons hf
  have hleaf := h.space.leaf r hr v hv hne
  have hlt := h.rep.page.lt44 (x := x) (by simp [hfree])
  have hram {y : Nat} (hy : g.own y ≠ .free) :
      ((s.alloc x).setPage x (s.ram (ppn (g.pt r v)))).ram y = s.ram y := by
    have hyx : y ≠ x := by
      rintro rfl
      exact hy hfree
    simp [Mem.setPage, Mem.alloc, hyx]
  obtain ⟨q, hq⟩ : ∃ q, g.own q = .table r 0 (v / 512) := by
    by_contra hno
    exact hne (h.rep.table.none fun q hq => hno ⟨q, hq⟩)
  have hqx : q ≠ x := by
    rintro rfl
    simp [hfree] at hq
  have h₁ := h.take hf (s.ram (ppn (g.pt r v)))
  refine .bind (h₁.uvmunmap_free hr (v := v) (n := 1) (by omega) fun w hw hw' => ?_) ?_
  · rw [Ghost.take_pt, show w = v by omega]
    exact hne
  rintro _ s₂ ⟨g₂, h₂, hfr₂, hkeep₂, _, hquiet, hp₂⟩
  obtain ⟨hx₂, hxram⟩ := hquiet.held x _ g.take_own_self
  have hq₂ : g₂.own q = .table r 0 (v / 512) :=
    (hquiet.tables q _ _ _).2 ((g.take_own hqx).trans hq)
  have hp₂' : g₂.pt r = Function.update (g.pt r) v 0 := by
    rw [hp₂]
    funext w
    rw [clearRange, Function.update_apply]
    have hiff : v ≤ w ∧ w < v + 1 ↔ w = v := by omega
    simp only [hiff, Ghost.take_pt]
  have hflags := hleaf.flags.uncow
  refine .bind (h₂.mapHeld hr hv (by rw [hp₂', Function.update_self]) hx₂
    (by rwa [hflags.or_V])) ?_
  rintro _ s₃ ⟨g₃, h₃, hfr₃, hd₃, _, ⟨_, hp₃, hx₃⟩ | ⟨_, _, _, _, hno⟩⟩
  · refine wp_pure.2 ⟨g₃, h₃, ?_, rfl, ⟨x, hlt, ?_, ?_⟩, fun w hw hwv hm => ?_⟩
    · exact (hfr₂.trans hfr₃ fun _ h _ => h).of_take h.space hfree (by simp [hx₃])
    · rw [hd₃ x (.inr ⟨_, hx₂⟩), hxram]
      exact Function.update_self _ _ _
    · rw [hp₃, hp₂', Function.update_idem, hflags.or_V]
    · have he : g₂.pt r w = g.pt r w := by rw [hp₂', Function.update_of_ne hwv]
      have hu := h₂.space.target r hr w hw (by rwa [he])
      have hk := hkeep₂ w hw (by rwa [he])
      rw [he] at hu hk
      rw [hd₃ _ (.inl hu), hk, hram (by simp [h.space.target r hr w hw hm])]
  · exact (hno q hq₂).elim

/-- Every way `cowalloc` can end. -/
def CowPost (L : Layout) (S : Finset Nat) (r v : Nat) (s : Mem) (g : Ghost) (ret : Int)
    (s' : Mem) : Prop :=
  ret = -1 ∧ s = s' ∧ (MAXV ≤ v ∨ g.pt r v = 0 ∨ (g.pt r v).getLsbD 8 = true ∧ g.free = []) ∨
  ret = 0 ∧ s = s' ∧ v < MAXV ∧ g.pt r v ≠ 0 ∧ (g.pt r v).getLsbD 8 = false ∨
  ret = 0 ∧ v < TFV ∧ g.pt r v ≠ 0 ∧ (g.pt r v).getLsbD 8 = true ∧ g.free ≠ [] ∧
    ∃ g', Good L s' g' S ∧ Frame S {r} s s' g g' ∧ Unshared r v s s' g g'

theorem Good.cowalloc (h : Good L s g S) (hr : r ∈ S) (hh : HighOk g r) :
    Wp (cowalloc L (r * PGSIZE) (v * PGSIZE)) NoError (CowPost L S r v s g) s := by
  rw [PbsCow.cowalloc]
  refine .ite_neg (by simp) (.ite (fun hmax => ?_) fun hmax => ?_)
  · refine wp_pure.2 (.inl ⟨rfl, rfl, .inl ?_⟩)
    rw [MAXVA_eq] at hmax
    exact Nat.le_of_mul_le_mul_right hmax (by decide)
  have hv : v < MAXV := by
    rw [MAXVA_eq] at hmax
    exact Nat.lt_of_mul_lt_mul_right (Nat.lt_of_not_le hmax)
  refine .bind (h.rep.walk_false (h.space.live r hr) (va_lt hv)) ?_
  rw [page_div]
  rintro a _ ⟨rfl, ⟨q, hq, rfl⟩ | ⟨hnone, rfl⟩⟩
  · refine .ite_neg (h.rep.slot_ne_zero hq) ?_
    simp only [loadWord, wp_bind, wp_get, wp_pure, h.rep.load_pte hq]
    by_cases hne : g.pt r v = 0
    · rw [hne]
      exact .ite_pos (by decide) (wp_pure.2 (.inl ⟨rfl, rfl, .inr (.inl hne)⟩))
    have hpa : PTE2PA (g.pt r v) ≠ 0 := by
      by_cases hvt : v < TFV
      · exact h.pos hr hvt hne
      · exact (hh v (by omega) hv hne).2.2
    refine .ite_neg hpa (.ite (fun hc => ?_) fun hc => ?_)
    · rw [flag_COW] at hc
      have hvt : v < TFV := by
        by_contra hvt
        rw [(hh v (by omega) hv hne).1] at hc
        cases hc
      cases hf : g.free with
      | nil =>
        refine .bind_ok (kalloc_nil (hf ▸ h.rep.page.freeRep)) (.ite_pos rfl (wp_pure.2 ?_))
        exact .inl ⟨rfl, rfl, .inr (.inr ⟨hc, hf⟩)⟩
      | cons x f =>
        have hfree := h.rep.free_of_cons hf
        have hm := (h.rep.page.managed x).1 (by simp [hfree])
        have hux : ppn (g.pt r v) ≠ x := by
          intro he
          have hu := h.space.target r hr v hvt hne
          simp [he, hfree] at hu
        refine .bind_ok (kalloc_cons (hf ▸ h.rep.page.freeRep)) (.ite_neg (Nat.ne_of_gt hm.pos) ?_)
        have hcopy : (s.alloc x).ram (ppn (g.pt r v)) = s.ram (ppn (g.pt r v)) :=
          Function.update_of_ne hux _ _
        simp only [memmovePage, wp_bind, wp_modify, page_div, PTE2PA_eq, hcopy,
          PGROUNDUP_page (Nat.le_of_lt hvt)]
        have hu := h.unshare hr hvt hne hf
        simp only [wp_bind, wp_pure] at hu
        refine hu.mono fun _ s₂ h₂ => h₂.mono ?_
        rintro _ s₃ ⟨g', hg, hfr, _, hun⟩
        exact wp_pure.2 (.inr (.inr ⟨rfl, hvt, hne, hc, by simp [hf], g', hg, hfr, hun⟩))
    · rw [flag_COW, Bool.not_eq_true] at hc
      exact wp_pure.2 (.inr (.inl ⟨rfl, rfl, hv, hne, hc⟩))
  · exact .ite_pos rfl (wp_pure.2 (.inl ⟨rfl, rfl, .inr (.inl (h.rep.table.none hnone))⟩))

end PbsCow

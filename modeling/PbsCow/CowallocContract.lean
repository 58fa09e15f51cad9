import PbsCow.Progress

namespace PbsCow
set_option autoImplicit true

/-- Page `x` is on the free list, which ends at the first null pointer. -/
def Mem.Free (s : Mem) (x : Nat) : Prop := ∃ l, Chain s.ram s.freelist l ∧ 0 ∉ l ∧ x ∈ l

/-- The page at `va` of process `p` has moved to a private copy. -/
structure Uncowed (t : Sys) (p : Slot) (va : Nat) (s' : Mem) : Prop where
  copy : ∃ x, s'.pte (t.proc p).pagetable va =
      mkPte x (uncowFlags (PTE_FLAGS (t.mem.pte (t.proc p).pagetable va))) ∧
    ppn (s'.pte (t.proc p).pagetable va) = x ∧
    s'.ram x = t.mem.ram (ppn (t.mem.pte (t.proc p).pagetable va)) ∧ s'.count x = 1
  count : s'.count (ppn (t.mem.pte (t.proc p).pagetable va)) =
    t.mem.count (ppn (t.mem.pte (t.proc p).pagetable va)) - 1
  freed : s'.Free (ppn (t.mem.pte (t.proc p).pagetable va)) ↔
    s'.count (ppn (t.mem.pte (t.proc p).pagetable va)) = 0
  others : ∀ i a, (t.proc i).pagetable ≠ 0 → a < MAXVA → ¬ (i = p ∧ a / PGSIZE = va / PGSIZE) →
    s'.pte (t.proc i).pagetable a = t.mem.pte (t.proc i).pagetable a
  kernel : ∀ a, a < MAXVA → s'.pte t.kernel_pagetable a = t.mem.pte t.kernel_pagetable a

theorem Chain.unique (h : Chain ram p l) (h' : Chain ram p l') (hl : 0 ∉ l) (hl' : 0 ∉ l') : l = l' := by
  have hzero {x : Nat} (hx : 0 = x * PGSIZE) : x = 0 := by
    simp only [PGSIZE] at hx
    omega
  induction l generalizing p l' with
  | nil =>
    cases l' with
    | nil => rfl
    | cons y l' => exact (hl' (by rw [hzero (h.symm.trans h'.1)]; simp)).elim
  | cons x l ih =>
    cases l' with
    | nil => exact (hl (by rw [hzero (h'.symm.trans h.1)]; simp)).elim
    | cons y l' =>
      obtain rfl := page_inj (h.1.symm.trans h'.1)
      rw [ih h.2 h'.2 (fun hm => hl (by simp [hm])) fun hm => hl' (by simp [hm])]

/-- Where `walk` finds a PTE, it allocates nothing. -/
theorem walkLoop_found (h : walkLoop false level pagetable va s = .ok (a, s')) (ha : a ≠ 0) :
    walkLoop true level pagetable va s = .ok (a, s') := by
  induction level generalizing pagetable with
  | zero => exact h
  | succ level ih =>
    have hpure {α : Type} (r : α) (s : Mem) : (pure r : Kern α) s = .ok (r, s) := rfl
    have hok {α : Type} (r : α) : (pure r : Except Panic α) = .ok r := rfl
    simp only [walkLoop, loadWord, bind, StateT.bind, get, getThe, MonadStateOf.get, StateT.get,
      hpure, hok, Except.bind] at h ⊢
    split at h
    · rename_i hv
      rw [if_pos hv]
      exact ih h
    · simp only [Bool.not_false, if_true] at h
      injection h with h
      injection h with h₁ h₂
      exact (ha h₁.symm).elim

/-- The address of the PTE of a page that has a page-table page. -/
theorem Rep.walk_slot (h : Rep L s g) (hr : g.Live r) (hv : v < MAXV)
    (hq : g.own q = .table r 0 (v / 512)) (alloc : Bool) :
    walk (r * PGSIZE) (v * PGSIZE) alloc s = .ok (q * PGSIZE + 8 * (v % 512), s) := by
  have hfound : walk (r * PGSIZE) (v * PGSIZE) false s = .ok (q * PGSIZE + 8 * (v % 512), s) := by
    obtain ⟨a, s', he, rfl, ha⟩ := (h.walk_false hr (va_lt hv)).exists_ok
    rw [page_div] at ha
    rcases ha with ⟨q', hq', rfl⟩ | ⟨hnone, _⟩
    · rw [h.table.unique hq' hq] at he
      exact he
    · exact (hnone q hq).elim
  cases alloc with
  | false => exact hfound
  | true =>
    have hva : ¬ MAXVA ≤ v * PGSIZE := Nat.not_le_of_gt (va_lt hv)
    simp only [walk, hva, if_false] at hfound ⊢
    exact walkLoop_found hfound (h.slot_ne_zero hq)

/-- `uvmunmap` of one user page gives up the reference and clears the PTE. -/
theorem Good.uvmunmap_page (h : Good L s g S) (hr : r ∈ S) (hv : v < TFV) (hne : g.pt r v ≠ 0)
    (hq : g.own q = .table r 0 (v / 512)) :
    uvmunmap L (r * PGSIZE) (v * PGSIZE) 1 true s =
      .ok ((), (s.drop (ppn (g.pt r v))).store (q * PGSIZE + 8 * (v % 512)) 0) := by
  have hleaf := h.space.leaf r hr v hv hne
  have hu := h.space.target r hr v hv hne
  have hk := kfree_eq (L := L) (x := ppn (g.pt r v)) (s := s)
    ((h.rep.page.managed _).1 (by simp [hu])) (h.rep.page.count_user _ hu)
  have hw : Wp (uvmunmap L (r * PGSIZE) (v * PGSIZE) 1 true) NoError (fun _ s' =>
      s' = (s.drop (ppn (g.pt r v))).store (q * PGSIZE + 8 * (v % 512)) 0) s := by
    rw [uvmunmap]
    refine .ite_neg (by simp) ?_
    rw [uvmunmapLoop]
    refine .bind_ok (h.rep.walk_slot (h.space.live r hr) (Nat.lt_trans hv (by decide)) hq false) ?_
    refine .ite_neg (h.rep.slot_ne_zero hq) ?_
    simp only [loadWord, wp_bind, wp_get, wp_pure, h.rep.load_pte hq]
    refine .ite_neg (by simp [hleaf.flag_V]) (.ite_neg hleaf.not_V (.ite_pos trivial ?_))
    rw [PTE2PA_eq]
    refine .bind_ok hk ?_
    simp only [storeWord, uvmunmapLoop, wp_bind, wp_modify, wp_pure]
  obtain ⟨_, s', he, rfl⟩ := hw.exists_ok
  exact he

/-- `mappages` of one page that has a page-table page writes the PTE. -/
theorem Rep.mappages_page (h : Rep L s g) (hr : g.Live r) (hv : v < MAXV)
    (hno : flag (g.pt r v) PTE_V = false) (hq : g.own q = .table r 0 (v / 512)) :
    mappages (r * PGSIZE) (v * PGSIZE) PGSIZE (x * PGSIZE) perm s =
      .ok (0, s.store (q * PGSIZE + 8 * (v % 512)) (mkPte x (perm ||| PTE_V))) := by
  have hw : Wp (mappages (r * PGSIZE) (v * PGSIZE) PGSIZE (x * PGSIZE) perm) NoError (fun ret s' =>
      ret = 0 ∧ s' = s.store (q * PGSIZE + 8 * (v % 512)) (mkPte x (perm ||| PTE_V))) s := by
    have he := mappages_aligned (r * PGSIZE) v 1 (x * PGSIZE) perm (by decide)
    rw [Nat.one_mul] at he
    rw [he, mappagesLoop]
    refine .bind_ok (h.walk_slot hr hv hq true) (.ite_neg (h.slot_ne_zero hq) ?_)
    simp only [loadWord, storeWord, wp_bind, wp_get, wp_pure, h.load_pte hq, mkPte_or]
    refine .ite_neg (by rw [hno]; decide) ?_
    rw [wp_bind, wp_modify]
    exact wp_pure.2 ⟨rfl, rfl⟩
  obtain ⟨ret, s', he, rfl, rfl⟩ := hw.exists_ok
  exact he

/-- The memory after page `y`, mapped by the PTE at `pte`, has moved to the first free page `x`. -/
def Mem.moved (s : Mem) (x y pte : Nat) (e : Word) : Mem :=
  ((((s.alloc x).setPage x (s.ram y)).drop y).store pte 0).store pte e

theorem Mem.moved_count (s : Mem) (hi : i < 512) (hne : y ≠ x) :
    (s.moved x y (q * PGSIZE + 8 * i) e).count z =
      if z = y then s.count y - 1 else if z = x then 1 else s.count z := by
  rw [Mem.moved, Mem.store_slot _ q hi, Mem.store_slot _ q hi]
  refine (Mem.drop_count ..).trans (if_congr .rfl ?_ ?_)
  · exact congrArg (· - 1) (Function.update_of_ne hne _ _)
  · exact Function.update_apply _ _ _ _

/-- The copying branch of `cowalloc`, step by step. -/
theorem Good.unshare_moved (h : Good L s g S) (hr : r ∈ S) (hv : v < TFV) (hne : g.pt r v ≠ 0)
    (hf : g.free = x :: f) (hq : g.own q = .table r 0 (v / 512)) :
    Wp (do
      uvmunmap L (r * PGSIZE) (v * PGSIZE) 1 true
      let _ ← mappages (r * PGSIZE) (v * PGSIZE) PGSIZE (x * PGSIZE)
        (uncowFlags (PTE_FLAGS (g.pt r v)))
      return (0 : Int)) NoError (fun _ s' =>
        s'.pte (r * PGSIZE) (v * PGSIZE) = mkPte x (uncowFlags (PTE_FLAGS (g.pt r v))) ∧
        s' = s.moved x (ppn (g.pt r v)) (q * PGSIZE + 8 * (v % 512))
          (mkPte x (uncowFlags (PTE_FLAGS (g.pt r v)))))
      ((s.alloc x).setPage x (s.ram (ppn (g.pt r v)))) := by
  have hfree := h.rep.free_of_cons hf
  have hqx : q ≠ x := by
    rintro rfl
    rw [hfree] at hq
    cases hq
  have h₁ := h.take hf (s.ram (ppn (g.pt r v)))
  have hq₁ : (g.take x f).own q = .table r 0 (v / 512) := (g.take_own hqx).trans hq
  refine .bind_ok (h₁.uvmunmap_page hr hv hne hq₁) ?_
  obtain ⟨hrep, hinv, _, _, hquiet⟩ := h₁.rep.unmap_one h₁.space hr hv hne rfl hq₁
  have hq₂ := (hquiet.tables q r 0 (v / 512)).2 hq₁
  refine .bind_ok (hrep.mappages_page (hinv.live r hr) (Nat.lt_trans hv (by decide))
    (by rw [Ghost.setPte_pt_self]; decide) hq₂) (wp_pure.2 ?_)
  rw [(h.space.leaf r hr v hv hne).flags.uncow.or_V]
  refine ⟨?_, rfl⟩
  rw [(hrep.setPte hq₂ _).pte_page (hinv.live r hr) (Nat.lt_trans hv (by decide)), Ghost.setPte_pt_self]

/-- The page-table page of a mapped page. -/
theorem Good.leaf_table (h : Good L s g S) (hne : g.pt r v ≠ 0) :
    ∃ q, g.own q = .table r 0 (v / 512) := by
  by_contra hno
  exact hne (h.rep.table.none fun q hq => hno ⟨q, hq⟩)

/-- A mapped page is not the next one that `kalloc` hands out. -/
theorem Good.ppn_ne_free (h : Good L s g S) (hr : r ∈ S) (hv : v < TFV) (hne : g.pt r v ≠ 0)
    (hf : g.free = x :: f) : ppn (g.pt r v) ≠ x := by
  intro he
  have hu := h.space.target r hr v hv hne
  rw [he, h.rep.free_of_cons hf] at hu
  cases hu

/-- What `cowalloc` makes of a COW page if there is memory. -/
theorem Good.cowalloc_moved (h : Good L s g S) (hr : r ∈ S) (hv : v < TFV) (hne : g.pt r v ≠ 0)
    (hcow : (g.pt r v).getLsbD 8 = true) (hf : g.free = x :: f)
    (hq : g.own q = .table r 0 (v / 512)) :
    Wp (PbsCow.cowalloc L (r * PGSIZE) (v * PGSIZE)) NoError (fun _ s' =>
      s'.pte (r * PGSIZE) (v * PGSIZE) = mkPte x (uncowFlags (PTE_FLAGS (g.pt r v))) ∧
      s' = s.moved x (ppn (g.pt r v)) (q * PGSIZE + 8 * (v % 512))
        (mkPte x (uncowFlags (PTE_FLAGS (g.pt r v))))) s := by
  have hmax : v < MAXV := Nat.lt_trans hv (by decide)
  have hfree := h.rep.free_of_cons hf
  have hm := (h.rep.page.managed x).1 (by simp [hfree])
  have hcopy : (s.alloc x).ram (ppn (g.pt r v)) = s.ram (ppn (g.pt r v)) :=
    Function.update_of_ne (h.ppn_ne_free hr hv hne hf) _ _
  rw [PbsCow.cowalloc]
  refine .ite_neg (by simp) (.ite_neg (Nat.not_le_of_gt (va_lt hmax)) ?_)
  refine .bind_ok (h.rep.walk_slot (h.space.live r hr) hmax hq false) ?_
  refine .ite_neg (h.rep.slot_ne_zero hq) ?_
  simp only [loadWord, wp_bind, wp_get, wp_pure, h.rep.load_pte hq]
  refine .ite_neg (h.pos hr hv hne) (.ite_pos (by rwa [flag_COW]) ?_)
  refine .bind_ok (kalloc_cons (hf ▸ h.rep.page.freeRep)) (.ite_neg (Nat.ne_of_gt hm.pos) ?_)
  simp only [memmovePage, wp_bind, wp_modify, page_div, PTE2PA_eq, hcopy,
    PGROUNDUP_page (Nat.le_of_lt hv)]
  have hu := h.unshare_moved hr hv hne hf hq
  simp only [wp_bind, wp_pure] at hu
  exact hu

/-- A page is free exactly if nobody has a reference to it. -/
theorem Rep.free_iff (h : Rep L s g) (hx : g.own x ≠ .outside) : s.Free x ↔ s.count x = 0 := by
  have hzero : 0 ∉ g.free := fun hm => by
    have hpos := (h.page.freeRep.managed 0 hm).pos
    omega
  constructor
  · rintro ⟨l, hl, hl0, hm⟩
    rw [hl.unique h.page.freeRep.chain hl0 hzero] at hm
    exact h.page.freeRep.zero x hm
  · intro h0
    refine ⟨g.free, h.page.freeRep.chain, hzero, (h.page.mem_free x).2 ?_⟩
    cases ho : g.own x with
    | outside => exact (hx ho).elim
    | free => rfl
    | table r l p => exact absurd (h0.symm.trans (h.page.count_table x r l p ho)) (by decide)
    | user => exact absurd (h.page.count_user x ho) (by rw [h0]; decide)
    | held k => exact absurd (h0.symm.trans (h.page.count_held x k ho)) (by decide)

/-- The copy in terms of the memory. -/
theorem Unshared.uncowed {t : Sys} {p : Slot} (hu : Unshared r v t.mem s' g g') (h : SysInv L t g)
    (hp : (t.proc p).pagetable = r * PGSIZE) (hr : r ∈ t.roots) (hv : v < TFV) (hne : g.pt r v ≠ 0)
    (hg : Good L s' g' t.roots) (hfr : Frame t.roots {r} t.mem s' g g')
    (hx : s'.pte (r * PGSIZE) (v * PGSIZE) = mkPte x (uncowFlags (PTE_FLAGS (g.pt r v))))
    (hone : s'.count x = 1) (hlt : x < 2 ^ 44)
    (hcount : s'.count (ppn (g.pt r v)) = t.mem.count (ppn (g.pt r v)) - 1) :
    Uncowed t p (v * PGSIZE) s' := by
  have hmax : v < MAXV := Nat.lt_trans hv (by decide)
  have hM : MAXVA = 2 ^ 38 := by decide
  have hpte := h.good.rep.pte_page (h.good.space.live r hr) hmax
  have hflags := (h.good.space.leaf r hr v hv hne).flags.uncow
  have hppn : ppn (s'.pte (r * PGSIZE) (v * PGSIZE)) = x := by
    rw [hx]
    exact ppn_mkPte hlt hflags.lt
  have htarget := h.good.space.target r hr v hv hne
  have hmanaged : g'.own (ppn (g.pt r v)) ≠ .outside := by
    refine (hg.rep.page.managed _).2 ((h.good.rep.page.managed _).1 ?_)
    rw [htarget]
    simp
  obtain ⟨y, hylt, hyram, hypt⟩ := hu.copy
  have hy : y = x := by
    have he := hg.rep.pte_page (hg.space.live r hr) hmax
    rw [hypt, Function.update_self, hx] at he
    rw [← ppn_mkPte hylt hflags.lt, ← he, ppn_mkPte hlt hflags.lt]
  refine ⟨?_, ?_, ?_, fun i a hi ha hne' => ?_, fun a ha => ?_⟩
  · rw [hp, hpte]
    exact ⟨x, hx, hppn, hy ▸ hyram, hone⟩
  · rw [hp, hpte]
    exact hcount
  · rw [hp, hpte]
    exact hg.rep.free_iff hmanaged
  · obtain ⟨r', _, hr', hm', _⟩ := h.space hi
    rw [hr', hg.rep.pte (hg.space.live r' hm') (by omega),
      h.good.rep.pte (h.good.space.live r' hm') (by omega)]
    by_cases he : r' = r
    · subst he
      have hip : i = p := h.inj i p (hr'.trans hp.symm) hi
      rw [hypt, Function.update_of_ne]
      rintro rfl
      exact hne' ⟨hip, by rw [page_div]⟩
    · rw [hfr.pt r' (by simpa using he)]
  · have hk : t.kernel_pagetable / PGSIZE ∉ ({r} : Finset Nat) := by
      intro hm
      rw [Finset.mem_singleton] at hm
      exact h.kernel (hm ▸ hr)
    have hlive := h.static.live
    have hlive' : g'.Live (t.kernel_pagetable / PGSIZE) := (hfr.tables _ _ 2 0 hk).2 hlive
    rw [h.kernel_root, hg.rep.pte hlive' (by omega), h.good.rep.pte hlive (by omega), hfr.pt _ hk]

/-- A second call of `cowalloc` finds nothing to do. -/
theorem Unshared.again (hu : Unshared r v s s' g g') (hg : Good L s' g' S) (hr : r ∈ S)
    (hh : HighOk g r) (hv : v < TFV) (hf : UserFlags (PTE_FLAGS (g.pt r v))) :
    cowalloc L (r * PGSIZE) (v * PGSIZE) s' = .ok (0, s') := by
  obtain ⟨x, _, _, hpt⟩ := hu.copy
  have hpte : g'.pt r v = mkPte x (uncowFlags (PTE_FLAGS (g.pt r v))) := by
    rw [hpt, Function.update_self]
  have hne : g'.pt r v ≠ 0 := by
    rw [hpte]
    exact hf.uncow.mkPte_ne_zero x
  have hcow : (g'.pt r v).getLsbD 8 = false := by
    rw [hpte, getLsbD_mkPte _ _ (by decide), uncowFlags_COW]
  have hh' : HighOk g' r := by
    refine hh.congr fun w hw => ?_
    rw [hpt, Function.update_of_ne]
    omega
  obtain ⟨ret, s'', he, hpost⟩ := (hg.cowalloc hr hh' (v := v)).exists_ok
  rcases hpost with ⟨_, _, hwhy⟩ | ⟨rfl, rfl, _⟩ | ⟨_, _, _, hc, _⟩
  · rcases hwhy with hmax | h0 | ⟨hc, _⟩
    · exact absurd (Nat.lt_trans hv (by decide)) (Nat.not_lt.2 hmax)
    · exact (hne h0).elim
    · rw [hcow] at hc
      cases hc
  · exact he
  · rw [hcow] at hc
    cases hc

/-- `cowalloc` never panics. If it fails it has changed nothing, and neither has it if the page is not
COW; a COW page moves to a private copy. A second call changes nothing. -/
theorem cowalloc_contract {t : Sys} {p : Slot} (h : Reachable L t) (hp : (t.proc p).state ≠ .UNUSED)
    (va : Nat) : ∃ ret s', cowalloc L (t.proc p).pagetable va t.mem = .ok (ret, s') ∧
      (ret = -1 ∧ s' = t.mem ∨
        ret = 0 ∧ flag (t.mem.pte (t.proc p).pagetable va) PTE_COW = false ∧ s' = t.mem ∨
        ret = 0 ∧ flag (t.mem.pte (t.proc p).pagetable va) PTE_COW = true ∧ Uncowed t p va s') ∧
      cowalloc L (t.proc p).pagetable va s' = .ok (ret, s') := by
  have hi := h.inv
  obtain ⟨g, hg⟩ := hi.sys
  obtain ⟨r, hr, hmem, hh⟩ := hg.highOk (hi.settled.used p hp).1
  by_cases hal : va % PGSIZE = 0
  · obtain ⟨v, rfl⟩ : ∃ v, va = v * PGSIZE :=
      ⟨va / PGSIZE, (Nat.div_mul_cancel (Nat.dvd_of_mod_eq_zero hal)).symm⟩
    obtain ⟨ret, s', he, hpost⟩ := (hg.good.cowalloc hmem hh (v := v)).exists_ok
    rw [hr]
    refine ⟨ret, s', he, ?_⟩
    rcases hpost with ⟨rfl, rfl, _⟩ | ⟨rfl, rfl, hv, hne, hcow⟩ | ⟨rfl, hv, hne, hcow, hfree, g', hg', hfr, hu⟩
    · exact ⟨.inl ⟨rfl, rfl⟩, he⟩
    · refine ⟨.inr (.inl ⟨rfl, ?_, rfl⟩), he⟩
      rw [hg.good.rep.pte_page (hg.good.space.live r hmem) hv, flag_COW]
      exact hcow
    · obtain ⟨x, f, hf⟩ := List.exists_cons_of_ne_nil hfree
      obtain ⟨q, hq⟩ := hg.good.leaf_table hne
      obtain ⟨hx, hm⟩ := (hg.good.cowalloc_moved hmem hv hne hcow hf hq).of_eq_ok he
      have hux := hg.good.ppn_ne_free hmem hv hne hf
      have hi : v % 512 < 512 := Nat.mod_lt _ (by decide)
      have hlt : x < 2 ^ 44 := hg.good.rep.page.lt44 (by rw [hg.good.rep.free_of_cons hf]; simp)
      refine ⟨.inr (.inr ⟨rfl, ?_, ?_⟩), ?_⟩
      · rw [hg.good.rep.pte_page (hg.good.space.live r hmem) (Nat.lt_trans hv (by decide)), flag_COW]
        exact hcow
      · refine hu.uncowed hg hr hmem hv hne hg' hfr hx ?_ hlt ?_
        · rw [hm, Mem.moved_count _ hi hux, if_neg hux.symm, if_pos rfl]
        · rw [hm, Mem.moved_count _ hi hux, if_pos rfl]
      · exact hu.again hg' hmem hh hv (hg.good.space.leaf r hmem v hv hne).flags
  · have hfail (s : Mem) : cowalloc L (t.proc p).pagetable va s = .ok (-1, s) := by
      simp only [cowalloc, ne_eq, hal, not_false_eq_true, if_true]
      rfl
    exact ⟨-1, t.mem, hfail _, .inl ⟨rfl, rfl⟩, hfail _⟩

/-- The first process is handed its own page. -/
theorem cowalloc_contract_booted : ∃ t p, Reachable imageLayout t ∧ (t.proc p).state = .RUNNING ∧
    ∃ ret s', cowalloc imageLayout (t.proc p).pagetable 0 t.mem = .ok (ret, s') ∧
      cowalloc imageLayout (t.proc p).pagetable 0 s' = .ok (ret, s') := by
  obtain ⟨t, p, g, r, x, _, hreach, hb⟩ := Reachable.init imageLayout fun _ _ => 0
  obtain ⟨ret, s', he, _, hagain⟩ := cowalloc_contract hreach (p := p) (by rw [hb.state]; simp) 0
  exact ⟨t, p, hreach, hb.state, ret, s', he, hagain⟩

end PbsCow

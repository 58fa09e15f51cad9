import PbsCow.Walk

namespace PbsCow
set_option autoImplicit true

theorem Rep.load_pte (h : Rep L s g) (hq : g.own q = .table r 0 (v / 512)) :
    s.load (q * PGSIZE + 8 * (v % 512)) = g.pt r v := by
  have hi : v % 512 < 512 := Nat.mod_lt _ (by decide)
  rw [Mem.load_slot s q hi, h.table.leaf hq hi]
  congr 1
  omega

theorem Rep.slot_ne_zero (h : Rep L s g) (hq : g.own q = .table r 0 p) : q * PGSIZE + i ≠ 0 := by
  have hp := h.page.pos (x := q) (by simp [hq])
  omega

/-- Writing a leaf PTE touches nothing but the page-table page that holds it. -/
theorem Grow.setPte (hq : g.own q = .table r 0 (v / 512)) (e : Word) :
    Grow r V 0 s (s.store (q * PGSIZE + 8 * (v % 512)) e) g (g.setPte r v e) := by
  have hi : v % 512 < 512 := Nat.mod_lt _ (by decide)
  refine ⟨fun r' hr => g.setPte_pt_root hr, fun _ _ => rfl, fun _ hx => .inl hx,
    fun x _ ht => ?_, fun _ _ => ?_, [], rfl, Nat.le_refl 0⟩
  · rw [Mem.store_slot s q hi]
    exact Function.update_of_ne (by rintro rfl; exact ht _ _ hq) _ _
  · rw [Mem.store_slot s q hi]
    rfl

/-- The map with `m` pages from `v` on mapped to the physical pages from `x` on. -/
def mapRange (f : Nat → Word) (v m x : Nat) (perm : Word) : Nat → Word :=
  fun w => if v ≤ w ∧ w < v + m then mkPte (x + (w - v)) (perm ||| PTE_V) else f w

theorem mapRange_zero (f : Nat → Word) (v x : Nat) (perm : Word) : mapRange f v 0 x perm = f := by
  funext w
  exact if_neg (by omega)

theorem mapRange_succ (f : Nat → Word) (v m x : Nat) (perm : Word) :
    mapRange (Function.update f v (mkPte x (perm ||| PTE_V))) (v + 1) m (x + 1) perm =
      mapRange f v (m + 1) x perm := by
  funext w
  by_cases hw : w = v
  · subst hw
    rw [mapRange, if_neg (by omega), Function.update_self, mapRange, if_pos (by omega),
      Nat.sub_self, Nat.add_zero]
  · rw [mapRange, mapRange, Function.update_of_ne hw]
    have hiff : v + 1 ≤ w ∧ w < v + 1 + m ↔ v ≤ w ∧ w < v + (m + 1) := by omega
    by_cases hr : v ≤ w ∧ w < v + (m + 1)
    · rw [if_pos (hiff.2 hr), if_pos hr]
      congr 1
      omega
    · rw [if_neg fun hc => hr (hiff.1 hc), if_neg hr]

theorem mapRange_one (f : Nat → Word) (v x : Nat) (perm : Word) :
    mapRange f v 1 x perm = Function.update f v (mkPte x (perm ||| PTE_V)) := by
  rw [← mapRange_succ, mapRange_zero]

/-- One turn of the loop of `mappages`, followed by the rest of the loop. -/
theorem Rep.mapStep (h : Rep L s g) (hr : g.Live r) (hv : v < 67108864)
    (hno : flag (g.pt r v) PTE_V = false)
    (hfail : ∀ s' g', Rep L s' g' → Grow r (· = v) 2 s s' g g' → g'.pt = g.pt → g'.free = [] →
      (∀ q, g.own q ≠ .table r 0 (v / 512)) → Q (-1) s')
    (hok : ∀ s' g', Rep L s' g' → Grow r (· = v) 2 s s' g g' →
      g'.pt r = Function.update (g.pt r) v (mkPte x (perm ||| PTE_V)) → Wp rest NoError Q s') :
    Wp (do
      let pte ← walk (r * PGSIZE) (v * PGSIZE) true
      if pte = 0 then return -1
      if flag (← loadWord pte) PTE_V then throw .mappagesRemap
      storeWord pte (PA2PTE (x * PGSIZE) ||| perm ||| PTE_V)
      rest) NoError Q s := by
  have hva : v * PGSIZE < MAXVA := by
    rw [MAXVA_eq]
    exact Nat.mul_lt_mul_of_pos_right hv (by decide)
  refine .bind (h.walk_true hr hva) ?_
  rw [page_div]
  rintro a s' ⟨g', hrep, hg, hp, ⟨rfl, hf, hnone⟩ | ⟨q, hq, rfl⟩⟩
  · exact .ite_pos rfl (wp_pure.2 (hfail s' g' hrep hg hp hf hnone))
  · refine .ite_neg (hrep.slot_ne_zero hq) ?_
    simp only [loadWord, storeWord, wp_bind, wp_get, wp_pure, hrep.load_pte hq, hp, mkPte_or]
    refine .ite_neg (by rw [hno]; decide) ?_
    rw [wp_bind, wp_modify]
    refine hok _ _ (hrep.setPte hq _) (hg.trans (.setPte hq _)) ?_
    rw [← hp]
    exact Function.update_self _ _ _

/-- `m` of the `n + 1` pages have been mapped; all of them unless memory ran out. -/
theorem Rep.mappagesLoop_spec (h : Rep L s g) (hr : g.Live r) (hv : v + n < 67108864)
    (hno : ∀ w, v ≤ w → w ≤ v + n → flag (g.pt r w) PTE_V = false) :
    Wp (mappagesLoop (r * PGSIZE) perm n (v * PGSIZE) (x * PGSIZE)) NoError (fun ret s' =>
      ∃ g' m, Rep L s' g' ∧ Grow r (fun w => v ≤ w ∧ w ≤ v + n) (2 * (n + 1)) s s' g g' ∧
        g'.pt r = mapRange (g.pt r) v m x perm ∧
        (ret = 0 ∧ m = n + 1 ∨ ret = -1 ∧ m ≤ n ∧ g'.free = [])) s := by
  induction n generalizing s g v x with
  | zero =>
    rw [mappagesLoop]
    refine h.mapStep hr hv (hno v (by omega) (by omega)) ?_ ?_
    · intro s' g' hrep hg hp hf _
      refine ⟨g', 0, hrep, hg.mono (fun w hw => by omega) (by omega), ?_,
        .inr ⟨rfl, Nat.le_refl 0, hf⟩⟩
      rw [hp, mapRange_zero]
    · intro s' g' hrep hg hp
      refine wp_pure.2 ⟨g', 1, hrep, hg.mono (fun w hw => by omega) (by omega), ?_,
        .inl ⟨rfl, rfl⟩⟩
      rw [hp, mapRange_one]
  | succ n ih =>
    rw [mappagesLoop]
    refine h.mapStep hr (by omega) (hno v (by omega) (by omega)) ?_ ?_
    · intro s' g' hrep hg hp hf _
      refine ⟨g', 0, hrep, hg.mono (fun w hw => by omega) (by omega), ?_,
        .inr ⟨rfl, Nat.zero_le _, hf⟩⟩
      rw [hp, mapRange_zero]
    · intro s' g' hrep hg hp
      have hv' : v * PGSIZE + PGSIZE = (v + 1) * PGSIZE := (Nat.succ_mul v PGSIZE).symm
      have hx' : x * PGSIZE + PGSIZE = (x + 1) * PGSIZE := (Nat.succ_mul x PGSIZE).symm
      rw [hv', hx']
      refine (ih hrep (hg.live hr) (by omega) ?_).mono ?_
      · intro w hw hw'
        rw [hp, Function.update_of_ne (by omega)]
        exact hno w (by omega) (by omega)
      · rintro ret s'' ⟨g'', m, hrep', hg', hp', hret⟩
        refine ⟨g'', m + 1, hrep', ?_, ?_, ?_⟩
        · have hstep := hg.mono (W := fun w => v ≤ w ∧ w ≤ v + (n + 1)) (fun w hw => by omega)
            (Nat.le_refl 2)
          exact (hstep.trans (hg'.mono (fun w hw => by omega) (Nat.le_refl _))).mono
            (fun _ hw => hw) (by omega)
        · rw [hp', hp, mapRange_succ]
        · rcases hret with ⟨hret, hm⟩ | ⟨hret, hm, hf⟩
          · exact .inl ⟨hret, by omega⟩
          · exact .inr ⟨hret, by omega, hf⟩

theorem mappages_aligned (pagetable v n pa : Nat) (perm : Word) (hn : 0 < n) :
    mappages pagetable (v * PGSIZE) (n * PGSIZE) pa perm =
      mappagesLoop pagetable perm (n - 1) (v * PGSIZE) pa := by
  have hz : ¬ n * PGSIZE = 0 := Nat.ne_of_gt (Nat.mul_pos hn (by decide))
  have ha : PGROUNDDOWN (v * PGSIZE) = v * PGSIZE := by rw [PGROUNDDOWN, page_div]
  have hl : (PGROUNDDOWN (v * PGSIZE + n * PGSIZE - 1) - v * PGSIZE) / PGSIZE = n - 1 := by
    simp only [PGROUNDDOWN, PGSIZE]
    omega
  simp only [mappages, hz, if_false, ha, hl]

/-- `mappages` of one page into an unused slot: it fails only when the free list has run out. -/
theorem Rep.mappages_one (h : Rep L s g) (hr : g.Live r) (hv : v < 67108864)
    (hno : flag (g.pt r v) PTE_V = false) :
    Wp (mappages (r * PGSIZE) (v * PGSIZE) PGSIZE (x * PGSIZE) perm) NoError (fun ret s' =>
      ∃ g', Rep L s' g' ∧ Grow r (· = v) 2 s s' g g' ∧
        (ret = 0 ∧ g'.pt r = Function.update (g.pt r) v (mkPte x (perm ||| PTE_V)) ∨
          ret = -1 ∧ g'.pt r = g.pt r ∧ g'.free = [] ∧
            ∀ q, g.own q ≠ .table r 0 (v / 512))) s := by
  have he := mappages_aligned (r * PGSIZE) v 1 (x * PGSIZE) perm (by decide)
  rw [Nat.one_mul] at he
  rw [he, mappagesLoop]
  refine h.mapStep hr hv hno ?_ ?_
  · intro s' g' hrep hg hp hf hnone
    exact ⟨g', hrep, hg, .inr ⟨rfl, by rw [hp], hf, hnone⟩⟩
  · intro s' g' hrep hg hp
    exact wp_pure.2 ⟨g', hrep, hg, .inl ⟨rfl, hp⟩⟩

end PbsCow

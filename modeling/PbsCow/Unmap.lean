import PbsCow.Spaces

namespace PbsCow
set_option autoImplicit true

/-- What a change to the address spaces with roots in `R` leaves alone: the mappings and the
contents of the other address spaces, their page tables, and the pages the kernel holds. -/
structure Frame (S R : Finset Nat) (s s' : Mem) (g g' : Ghost) : Prop where
  pt : ∀ r, r ∉ R → g'.pt r = g.pt r
  page : ∀ r ∈ S, r ∉ R → ∀ v, v < TFV → g.pt r v ≠ 0 →
    s'.ram (ppn (g.pt r v)) = s.ram (ppn (g.pt r v))
  held : ∀ x k, g.own x = .held k → k ≠ .fresh → g'.own x = .held k ∧ s'.ram x = s.ram x
  holder : ∀ x k, g'.own x = .held k → g.own x = .held k
  tables : ∀ x r l p, r ∉ R → (g'.own x = .table r l p ↔ g.own x = .table r l p)

theorem Frame.refl (S R : Finset Nat) (s : Mem) (g : Ghost) : Frame S R s s g g where
  pt _ _ := rfl
  page _ _ _ _ _ _ := rfl
  held _ _ h _ := ⟨h, rfl⟩
  holder _ _ h := h
  tables _ _ _ _ _ := .rfl

theorem Frame.trans (h : Frame S R s s' g g') (h' : Frame S' R s' s'' g' g'')
    (hS : ∀ r ∈ S, r ∉ R → r ∈ S') : Frame S R s s'' g g'' where
  pt r hR := (h'.pt r hR).trans (h.pt r hR)
  page r hr hR v hv hne := by
    have hp := congrFun (h.pt r hR) v
    have h2 := h'.page r (hS r hr hR) hR v hv (hp ▸ hne)
    rw [hp] at h2
    exact h2.trans (h.page r hr hR v hv hne)
  held x k hk hf := by
    obtain ⟨h1, h2⟩ := h.held x k hk hf
    obtain ⟨h3, h4⟩ := h'.held x k h1 hf
    exact ⟨h3, h4.trans h2⟩
  holder x k hk := h.holder x k (h'.holder x k hk)
  tables x r l p hR := (h'.tables x r l p hR).trans (h.tables x r l p hR)

theorem Frame.mono (h : Frame S R s s' g g') (hR : R ⊆ T) : Frame S T s s' g g' where
  pt r hR' := h.pt r fun hr' => hR' (hR hr')
  page r hr hR' := h.page r hr fun hr' => hR' (hR hr')
  held := h.held
  holder := h.holder
  tables x r l p hR' := h.tables x r l p fun hr' => hR' (hR hr')

theorem Frame.subset (h : Frame S R s s' g g') (hS : S' ⊆ S) : Frame S' R s s' g g' :=
  ⟨h.pt, fun r hr => h.page r (hS hr), h.held, h.holder, h.tables⟩

/-- Growing a page table is invisible to the other address spaces. -/
theorem Grow.frame (hg : Grow r V k s s' g g') (h : SpaceInv s g S) : Frame S {r} s s' g g' where
  pt r' hR := hg.pt r' (by simpa using hR)
  page r' hr' _ v hv hne := by
    have hu := h.target r' hr' v hv hne
    exact hg.ram _ (by simp [hu]) (by simp [hu])
  held x k hk _ := ⟨(hg.keep x (by simp [hk])).trans hk, hg.ram x (by simp [hk]) (by simp [hk])⟩
  holder x k hk := by
    by_cases hf : g.own x = .free
    · rcases hg.new x hf with ho | ⟨v, l, _, _, ho⟩ <;> simp [ho] at hk
    · rw [hg.keep x hf] at hk
      exact hk
  tables x r' l p hR := by
    have hne : r ≠ r' := fun he => hR (by simp [he])
    by_cases hf : g.own x = .free
    · rcases hg.new x hf with ho | ⟨v, l', _, _, ho⟩
      · simp [hf, ho]
      · simp [hf, ho, hne]
    · rw [hg.keep x hf]

theorem Grow.user_iff (hg : Grow r V k s s' g g') (x : Nat) :
    g'.own x = .user ↔ g.own x = .user := by
  by_cases hf : g.own x = .free
  · rcases hg.new x hf with ho | ⟨v, l, _, _, ho⟩ <;> simp [hf, ho]
  · rw [hg.keep x hf]

/-- Growing a page table without changing a mapping keeps the reference counts right. -/
theorem Grow.spaceInv (hg : Grow r V k s s' g g') (hp : g'.pt r = g.pt r) (h : SpaceInv s g S) :
    SpaceInv s' g' S := by
  have hpt (r' : Nat) : g'.pt r' = g.pt r' := by
    by_cases hr : r' = r
    · rw [hr, hp]
    · exact hg.pt r' hr
  exact h.congr (fun r' hr' => hg.live (h.live r' hr')) (fun r' _ v _ => by rw [hpt])
    (fun r' _ v _ => by rw [hpt]) hg.user_iff fun x hx => hg.count x (by simp [hx])

def Ghost.drop (g : Ghost) (x : Nat) (c : Int) : Ghost where
  own := Function.update g.own x (if c = 1 then .free else .user)
  free := if c = 1 then x :: g.free else g.free
  pt := g.pt

theorem Ghost.drop_own (g : Ghost) (h : y ≠ x) : (g.drop x c).own y = g.own y :=
  Function.update_of_ne h _ _

@[simp] theorem Ghost.drop_own_self (g : Ghost) :
    (g.drop x c).own x = if c = 1 then .free else .user :=
  Function.update_self _ _ _

theorem Mem.drop_ram (s : Mem) (h : y ≠ x) : (s.drop x).ram y = s.ram y := by
  unfold Mem.drop
  split
  · exact Function.update_of_ne h _ _
  · rfl

theorem Mem.drop_ram_self (s : Mem) (h : s.count x ≠ 1) : (s.drop x).ram = s.ram := by
  rw [Mem.drop, if_neg h]
  rfl

theorem Mem.drop_count (s : Mem) (x y : Nat) :
    (s.drop x).count y = if y = x then s.count x - 1 else s.count y := by
  unfold Mem.drop
  by_cases hy : y = x
  · subst hy
    split
    · simp_all [Mem.release]
    · simp [Mem.setCount]
  · split <;> simp [hy, Mem.release, Mem.setCount]

/-- Giving up one of the references to a user page. -/
theorem Rep.drop (h : Rep L s g) (hx : g.own x = .user) :
    Rep L (s.drop x) (g.drop x (s.count x)) := by
  have hc := h.page.count_user x hx
  have hne {y r l p : Nat} (hy : g.own y = .table r l p) : y ≠ x := by
    rintro rfl
    simp [hx] at hy
  refine ⟨?_, h.table.congr (fun y r l p => ?_) rfl fun y r l p hy => s.drop_ram (hne hy)⟩
  · by_cases h1 : s.count x = 1
    · have hr := h.page.release (x := x) (by simp [hx]) (by simp [hx])
      simpa only [Mem.drop, Ghost.drop, h1, if_true] using hr
    · have hr := h.page.setCount (n := s.count x - 1) hx (by omega)
      have hs : Function.update g.own x .user = g.own := by
        rw [← hx]
        exact Function.update_eq_self _ _
      simpa only [Mem.drop, Ghost.drop, h1, if_false, hs] using hr
  · by_cases hy : y = x
    · subst hy
      rw [g.drop_own_self, hx]
      split <;> simp
    · rw [g.drop_own hy]

def clearRange (f : Nat → Word) (v n : Nat) : Nat → Word :=
  fun w => if v ≤ w ∧ w < v + n then 0 else f w

theorem clearRange_zero (f : Nat → Word) (v : Nat) : clearRange f v 0 = f := by
  funext w
  exact if_neg (by omega)

theorem clearRange_succ (f : Nat → Word) (v n : Nat) :
    clearRange (Function.update f v 0) (v + 1) n = clearRange f v (n + 1) := by
  funext w
  by_cases hw : w = v
  · subst hw
    rw [clearRange, if_neg (by omega), Function.update_self, clearRange, if_pos (by omega)]
  · rw [clearRange, clearRange, Function.update_of_ne hw]
    have hiff : v + 1 ≤ w ∧ w < v + 1 + n ↔ v ≤ w ∧ w < v + (n + 1) := by omega
    simp only [hiff]

/-- Page-table pages stay in place, and so does every page held by the kernel. -/
structure Undisturbed (s s' : Mem) (g g' : Ghost) : Prop where
  tables : ∀ x r l p, g'.own x = .table r l p ↔ g.own x = .table r l p
  held : ∀ x k, g.own x = .held k → g'.own x = .held k ∧ s'.ram x = s.ram x

theorem Undisturbed.refl (s : Mem) (g : Ghost) : Undisturbed s s g g :=
  ⟨fun _ _ _ _ => .rfl, fun _ _ hk => ⟨hk, rfl⟩⟩

theorem Undisturbed.trans (h : Undisturbed s s' g g') (h' : Undisturbed s' s'' g' g'') :
    Undisturbed s s'' g g'' := by
  refine ⟨fun x r l p => (h'.tables x r l p).trans (h.tables x r l p), fun x k hk => ?_⟩
  obtain ⟨h1, h2⟩ := h.held x k hk
  obtain ⟨h3, h4⟩ := h'.held x k h1
  exact ⟨h3, h4.trans h2⟩

/-- The pages still mapped below root `r` keep their contents. -/
def Keeps (r : Nat) (s s' : Mem) (g' : Ghost) : Prop :=
  ∀ v, v < TFV → g'.pt r v ≠ 0 → s'.ram (ppn (g'.pt r v)) = s.ram (ppn (g'.pt r v))

/-- The slot that `walk` finds for a page with a PTE. -/
theorem Rep.slot_of_ne_zero (h : Rep L s g) (hne : g.pt r v ≠ 0) (ha : IsSlot g r v a) :
    ∃ q, g.own q = .table r 0 (v / 512) ∧ a = q * PGSIZE + 8 * (v % 512) := by
  rcases ha with hq | ⟨hq, _⟩
  · exact hq
  · exact (hne (h.table.none hq)).elim

theorem va_lt (hv : v < MAXV) : v * PGSIZE < MAXVA := by
  rw [MAXVA_eq]
  exact Nat.mul_lt_mul_of_pos_right hv (by decide)

/-- Removing one mapping, with its reference. -/
theorem Rep.unmap_one (h : Rep L s g) (hi : SpaceInv s g S) (hr : r ∈ S) (hv : v < TFV)
    (hne : g.pt r v ≠ 0) (hx : ppn (g.pt r v) = x) (hq : g.own q = .table r 0 (v / 512)) :
    Rep L ((s.drop x).store (q * PGSIZE + 8 * (v % 512)) 0)
        ((g.drop x (s.count x)).setPte r v 0) ∧
      SpaceInv ((s.drop x).store (q * PGSIZE + 8 * (v % 512)) 0)
        ((g.drop x (s.count x)).setPte r v 0) S ∧
      Frame S {r} s ((s.drop x).store (q * PGSIZE + 8 * (v % 512)) 0) g
        ((g.drop x (s.count x)).setPte r v 0) ∧
      Keeps r s ((s.drop x).store (q * PGSIZE + 8 * (v % 512)) 0)
        ((g.drop x (s.count x)).setPte r v 0) ∧
      Undisturbed s ((s.drop x).store (q * PGSIZE + 8 * (v % 512)) 0) g
        ((g.drop x (s.count x)).setPte r v 0) := by
  have hu : g.own x = .user := hx ▸ hi.target r hr v hv hne
  have hqx : q ≠ x := by
    rintro rfl
    simp [hu] at hq
  have hlt : v % 512 < 512 := Nat.mod_lt _ (by decide)
  have hstore : (s.drop x).store (q * PGSIZE + 8 * (v % 512)) 0 =
      (s.drop x).setPage q (Function.update ((s.drop x).ram q) (v % 512) 0) :=
    Mem.store_slot _ q hlt 0
  have hcount (y : Nat) : ((s.drop x).store (q * PGSIZE + 8 * (v % 512)) 0).count y =
      if y = x then s.count x - 1 else s.count y := by
    rw [hstore]
    exact s.drop_count x y
  have hinv := hi.unmap (o := if s.count x = 1 then .free else .user) hr hv hne hx
    (by split <;> simp_all) hcount
  -- a page that is still mapped somewhere was not the page given up, or had another reference
  have hram {r' w : Nat} (hr' : r' ∈ S) (hw : w < TFV) (hm : g.pt r' w ≠ 0)
      (hrw : ¬ (r' = r ∧ w = v)) :
      ((s.drop x).store (q * PGSIZE + 8 * (v % 512)) 0).ram (ppn (g.pt r' w)) =
        s.ram (ppn (g.pt r' w)) := by
    have hu' := hi.target r' hr' w hw hm
    have hne' : ppn (g.pt r' w) ≠ q := by
      intro he
      rw [he, hq] at hu'
      simp at hu'
    rw [hstore]
    refine (Function.update_of_ne hne' _ _).trans ?_
    by_cases hy : ppn (g.pt r' w) = x
    · rw [s.drop_ram_self]
      intro h1
      have hc := hi.count x hu
      have h2 : 1 < (mappers g S x).card := Finset.one_lt_card.2
        ⟨(r, v), mem_mappers.2 ⟨hr, hv, hne, hx⟩, (r', w), mem_mappers.2 ⟨hr', hw, hm, hy⟩,
          fun he => hrw (by rw [Prod.mk.injEq] at he; exact ⟨he.1.symm, he.2.symm⟩)⟩
      omega
    · exact s.drop_ram hy
  have hquiet : Undisturbed s ((s.drop x).store (q * PGSIZE + 8 * (v % 512)) 0) g
      ((g.drop x (s.count x)).setPte r v 0) := by
    refine ⟨fun y r' l p => ?_, fun y k hk => ?_⟩
    · by_cases hyx : y = x
      · subst hyx
        rw [Ghost.setPte_own, g.drop_own_self, hu]
        split <;> simp
      · rw [Ghost.setPte_own, g.drop_own hyx]
    · have hyx : y ≠ x := by
        rintro rfl
        simp [hu] at hk
      have hyq : y ≠ q := by
        rintro rfl
        simp [hq] at hk
      refine ⟨(g.drop_own hyx).trans hk, ?_⟩
      rw [hstore]
      exact (Function.update_of_ne hyq _ _).trans (s.drop_ram hyx)
  refine ⟨(h.drop hu).setPte ((g.drop_own hqx).trans hq) 0,
    ⟨hinv.live, hinv.leaf, hinv.target, hinv.count, hinv.excl, hinv.inj, hinv.high⟩, ?_, ?_, hquiet⟩
  · refine ⟨fun r' hR => ?_, fun r' hr' hR w hw hm => ?_, fun y k hk _ => hquiet.held y k hk,
      fun y k hk => ?_, fun y r' l p _ => hquiet.tables y r' l p⟩
    · exact Ghost.setPte_pt_root _ (by simpa using hR)
    · exact hram hr' hw hm fun hc => hR (by simp [hc.1])
    · by_cases hyx : y = x
      · subst hyx
        rw [Ghost.setPte_own, g.drop_own_self] at hk
        split at hk <;> simp at hk
      · rwa [Ghost.setPte_own, g.drop_own hyx] at hk
  · intro w hw hm
    have hwv : w ≠ v := by
      rintro rfl
      exact hm (Ghost.setPte_pt_self _)
    have hpt : ((g.drop x (s.count x)).setPte r v 0).pt r w = g.pt r w :=
      Ghost.setPte_pt_of_ne _ hwv
    rw [hpt] at hm ⊢
    exact hram hr hw hm fun hc => hwv hc.2

/-- The memory, its abstract view, and the address spaces in `S`. -/
structure Good (L : Layout) (s : Mem) (g : Ghost) (S : Finset Nat) : Prop where
  rep : Rep L s g
  space : SpaceInv s g S

/-- The free list may only have grown at its front. -/
def FreeSuffix (g g' : Ghost) : Prop := ∃ t, g'.free = t ++ g.free

theorem FreeSuffix.refl (g : Ghost) : FreeSuffix g g := ⟨[], rfl⟩

theorem FreeSuffix.trans (h : FreeSuffix g g') (h' : FreeSuffix g' g'') : FreeSuffix g g'' := by
  obtain ⟨t, ht⟩ := h
  obtain ⟨t', ht'⟩ := h'
  exact ⟨t' ++ t, by rw [ht', ht, List.append_assoc]⟩

theorem Ghost.drop_freeSuffix (g : Ghost) (x : Nat) (c : Int) (r v : Nat) (e : Word) :
    FreeSuffix g ((g.drop x c).setPte r v e) := by
  by_cases hc : c = 1
  · exact ⟨[x], by simp [Ghost.drop, hc]⟩
  · exact ⟨[], by simp [Ghost.drop, hc]⟩

theorem Good.uvmunmapLoop_free (h : Good L s g S) (hr : r ∈ S) (hv : v + n ≤ TFV)
    (hall : ∀ w, v ≤ w → w < v + n → g.pt r w ≠ 0) :
    Wp (uvmunmapLoop L (r * PGSIZE) true n (v * PGSIZE)) NoError (fun _ s' =>
      ∃ g', Good L s' g' S ∧ Frame S {r} s s' g g' ∧ Keeps r s s' g' ∧ FreeSuffix g g' ∧
        Undisturbed s s' g g' ∧ g'.pt r = clearRange (g.pt r) v n) s := by
  induction n generalizing s g v with
  | zero =>
    refine wp_pure.2 ⟨g, h, .refl _ _ _ _, fun _ _ _ => rfl, .refl g, .refl s g, ?_⟩
    rw [clearRange_zero]
  | succ n ih =>
    have hvlt : v < TFV := by omega
    have hmax : v < MAXV := Nat.lt_trans hvlt (by decide)
    have hne := hall v (by omega) (by omega)
    have hleaf := h.space.leaf r hr v hvlt hne
    rw [uvmunmapLoop]
    refine .bind (h.rep.walk_false (h.space.live r hr) (va_lt hmax)) ?_
    rw [page_div]
    rintro a _ ⟨rfl, ha⟩
    obtain ⟨q, hq, rfl⟩ := h.rep.slot_of_ne_zero hne ha
    refine .ite_neg (h.rep.slot_ne_zero hq) ?_
    simp only [loadWord, wp_bind, wp_get, wp_pure, h.rep.load_pte hq]
    refine .ite_neg (by simp [hleaf.flag_V]) (.ite_neg hleaf.not_V (.ite_pos trivial ?_))
    have hu := h.space.target r hr v hvlt hne
    have hk := kfree_eq (L := L) (x := ppn (g.pt r v)) (s := s)
      ((h.rep.page.managed _).1 (by simp [hu])) (h.rep.page.count_user _ hu)
    rw [PTE2PA_eq]
    refine .bind_ok hk ?_
    simp only [storeWord, wp_bind, wp_modify]
    obtain ⟨hrep, hinv, hfr, hkeep, hquiet⟩ := h.rep.unmap_one h.space hr hvlt hne rfl hq
    have hs : v * PGSIZE + PGSIZE = (v + 1) * PGSIZE := (Nat.succ_mul v PGSIZE).symm
    rw [hs]
    have hpt : ((g.drop (ppn (g.pt r v)) (s.count (ppn (g.pt r v)))).setPte r v 0).pt r =
        Function.update (g.pt r) v 0 := Function.update_self _ _ _
    refine (ih ⟨hrep, hinv⟩ (by omega) ?_).mono ?_
    · intro w hw hw'
      rw [hpt, Function.update_of_ne (by omega)]
      exact hall w (by omega) (by omega)
    · rintro _ s' ⟨g', hgood, hfr', hkeep', hfree, hquiet', hpt'⟩
      refine ⟨g', hgood, hfr.trans hfr' fun _ h _ => h, fun w hw hm => ?_,
        (g.drop_freeSuffix _ _ r v 0).trans hfree, hquiet.trans hquiet', ?_⟩
      · rw [hkeep' w hw hm]
        rw [hpt', hpt] at hm ⊢
        by_cases hc : v + 1 ≤ w ∧ w < v + 1 + n
        · exact (hm (if_pos hc)).elim
        · rw [clearRange, if_neg hc] at hm ⊢
          have hk := hkeep w hw
          rw [hpt] at hk
          exact hk hm
      · rw [hpt', hpt, clearRange_succ]

theorem Good.uvmunmap_free (h : Good L s g S) (hr : r ∈ S) (hv : v + n ≤ TFV)
    (hall : ∀ w, v ≤ w → w < v + n → g.pt r w ≠ 0) :
    Wp (uvmunmap L (r * PGSIZE) (v * PGSIZE) n true) NoError (fun _ s' =>
      ∃ g', Good L s' g' S ∧ Frame S {r} s s' g g' ∧ Keeps r s s' g' ∧ FreeSuffix g g' ∧
        Undisturbed s s' g g' ∧ g'.pt r = clearRange (g.pt r) v n) s := by
  rw [uvmunmap]
  refine .ite_neg (by simp) ?_
  exact h.uvmunmapLoop_free hr hv hall

/-- Removing the mapping of the trapframe or the trampoline page, which is not freed. -/
theorem Good.uvmunmap_high (h : Good L s g S) (hr : g.Live r) (hv : TFV ≤ v) (hv' : v < MAXV)
    (hV : flag (g.pt r v) PTE_V = true) (hleaf : PTE_FLAGS (g.pt r v) ≠ PTE_V) :
    Wp (uvmunmap L (r * PGSIZE) (v * PGSIZE) 1 false) NoError (fun _ s' =>
      ∃ g', Good L s' g' S ∧ Frame S {r} s s' g g' ∧ g' = g.setPte r v 0 ∧
        (∀ x, (∀ l p, g.own x ≠ .table r l p) → s'.ram x = s.ram x) ∧ s'.count = s.count) s := by
  have hne : g.pt r v ≠ 0 := by
    intro h0
    simp [h0] at hV
  rw [uvmunmap]
  refine .ite_neg (by simp) ?_
  rw [uvmunmapLoop]
  refine .bind (h.rep.walk_false hr (va_lt hv')) ?_
  rw [page_div]
  rintro a _ ⟨rfl, ha⟩
  obtain ⟨q, hq, rfl⟩ := h.rep.slot_of_ne_zero hne ha
  refine .ite_neg (h.rep.slot_ne_zero hq) ?_
  simp only [loadWord, wp_bind, wp_get, wp_pure, h.rep.load_pte hq]
  refine .ite_neg (by simp [hV]) (.ite_neg hleaf (.ite_neg (by decide) ?_))
  simp only [storeWord, wp_bind, wp_modify, uvmunmapLoop, wp_pure]
  have hi : v % 512 < 512 := Nat.mod_lt _ (by decide)
  have hgrow : Grow r (fun _ => True) 0 s (s.store (q * PGSIZE + 8 * (v % 512)) 0) g
      (g.setPte r v 0) := .setPte hq 0
  refine ⟨_, ⟨h.rep.setPte hq 0, ?_⟩, hgrow.frame h.space, rfl, fun x hx => ?_, ?_⟩
  · exact h.space.congr (fun r' hr' => h.space.live r' hr')
      (fun r' _ w hw => Ghost.setPte_pt_of_ne g (by omega))
      (fun r' _ w hw => Ghost.setPte_pt_of_ne g (by omega)) (fun _ => .rfl)
      fun x _ => by rw [Mem.store_slot s q hi]; rfl
  · rw [Mem.store_slot s q hi]
    exact Function.update_of_ne (by rintro rfl; exact hx _ _ hq) _ _
  · rw [Mem.store_slot s q hi]
    rfl

end PbsCow

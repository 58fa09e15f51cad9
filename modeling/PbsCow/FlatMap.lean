import PbsCow.Kvmmake
import PbsCow.Lib.Runs
import PbsCow.Mmu

namespace PbsCow
set_option autoImplicit true

/-- What can happen to a page table and to the pages around it. -/
inductive TableOp where
  | kalloc
  | kfree (pa : Nat)
  | walk (va : Nat)
  | mappages (va size pa : Nat) (perm : Word)
  | uvmunmap (va npages : Nat) (doFree : Bool)

def TableOp.run (L : Layout) (pagetable : Nat) : TableOp → Kern Unit
  | .kalloc => do
    let _ ← PbsCow.kalloc
  | .kfree pa => PbsCow.kfree L pa
  | .walk va => do
    let _ ← PbsCow.walk pagetable va true
  | .mappages va size pa perm => do
    let _ ← PbsCow.mappages pagetable va size pa perm
  | .uvmunmap va npages doFree => PbsCow.uvmunmap L pagetable va npages doFree

/-- The page-table pages of the tree. -/
def Mem.tree (s : Mem) (pagetable : Nat) : List Nat := tablePages s.ram 2 (pagetable / PGSIZE)

/-- The range of addresses ends below 2^64, and no page-table page is freed as if it were a page that
the table maps. -/
def TableOp.Proper (pagetable : Nat) (s : Mem) : TableOp → Prop
  | .kfree pa => pa / PGSIZE ∉ s.tree pagetable
  | .mappages va size _ _ => va + size ≤ 2 ^ 64
  | .uvmunmap va npages doFree => va + npages * PGSIZE < 2 ^ 64 ∧
      (doFree = true → ∀ v, va / PGSIZE ≤ v → v < va / PGSIZE + npages → v < MAXV →
        ppn (s.pte pagetable (v * PGSIZE)) ∉ s.tree pagetable)
  | _ => True

/-- Memory in which `r` is the root of the only page table. -/
structure TreeRep (L : Layout) (r : Nat) (s : Mem) (g : Ghost) : Prop where
  rep : Rep L s g
  live : g.Live r
  mine : ∀ x r' l p, g.own x = .table r' l p → r' = r
  unheld : ∀ x k, g.own x ≠ .held k
  low : ∀ x p, g.own x = .table r 0 p → p * 512 < MAXV

namespace TreeRep

theorem mem_tree (h : TreeRep L r s g) (y : Nat) :
    y ∈ s.tree (r * PGSIZE) ↔ ∃ l p, g.own y = .table r l p := by
  rw [Mem.tree, page_div]
  exact h.rep.mem_tablePages_root h.live y

theorem not_table (h : TreeRep L r s g) (hx : x ∉ s.tree (r * PGSIZE)) (r' l p : Nat) :
    g.own x ≠ .table r' l p := by
  intro ho
  have hr := h.mine x r' l p ho
  subst hr
  exact hx ((h.mem_tree x).2 ⟨l, p, ho⟩)

theorem grow (h : TreeRep L r s g) (hrep : Rep L s' g') (hV : v < MAXV) (hg : Grow r (· = v) k s s' g g') :
    TreeRep L r s' g' := by
  refine ⟨hrep, hg.live h.live, fun x r' l p ho => ?_, fun x k ho => ?_, fun x p ho => ?_⟩ <;>
    by_cases hx : g.own x = .free
  · rcases hg.new x hx with hf | ⟨v, l', _, _, ho'⟩
    · rw [hf] at ho
      cases ho
    · rw [ho', Owner.table.injEq] at ho
      exact ho.1.symm
  · exact h.mine x r' l p ((hg.keep x hx).symm.trans ho)
  · rcases hg.new x hx with hf | ⟨v, l', _, _, ho'⟩
    · rw [hf] at ho
      cases ho
    · rw [ho'] at ho
      cases ho
  · exact h.unheld x k ((hg.keep x hx).symm.trans ho)
  · rcases hg.new x hx with hf | ⟨v', l', rfl, _, ho'⟩
    · rw [hf] at ho
      cases ho
    · rw [ho', Owner.table.injEq] at ho
      obtain ⟨_, rfl, rfl⟩ := ho
      omega
  · exact h.low x p ((hg.keep x hx).symm.trans ho)

/-- A page is taken for something else. -/
theorem kalloc (h : TreeRep L r s g) :
    Wp PbsCow.kalloc NoError (fun _ s' => ∃ g', TreeRep L r s' g') s := by
  cases hf : g.free with
  | nil => exact .of_ok (kalloc_nil (hf ▸ h.rep.page.freeRep)) ⟨g, h⟩
  | cons x f =>
    have hfree := h.rep.free_of_cons hf
    have hown {y : Nat} (o : Owner) (ho : o ≠ .free) (ho' : o ≠ .user) :
        Function.update g.own x .user y = o ↔ g.own y = o := by
      by_cases hy : y = x
      · subst hy
        rw [Function.update_self, hfree]
        exact iff_of_false (Ne.symm ho') (Ne.symm ho)
      · rw [Function.update_of_ne hy]
    refine .of_ok (kalloc_cons (hf ▸ h.rep.page.freeRep)) ⟨{ g with own := Function.update g.own x .user, free := f },
      ⟨h.rep.page.alloc hf (by simp) (by simp), ?_⟩, ?_, fun y r' l p ho => ?_, fun y k ho => ?_, fun y p ho => ?_⟩
    · refine h.rep.table.congr (fun y r' l p => hown _ (by simp) (by simp)) rfl fun y r' l p ho => ?_
      refine Function.update_of_ne ?_ _ _
      rintro rfl
      simp [hfree] at ho
    · exact (hown _ (by simp) (by simp)).2 h.live
    · exact h.mine y r' l p ((hown _ (by simp) (by simp)).1 ho)
    · exact h.unheld y k ((hown _ (by simp) (by simp)).1 ho)
    · exact h.low y p ((hown _ (by simp) (by simp)).1 ho)

/-- A reference is given up to a page that holds no page table. -/
theorem drop (h : TreeRep L r s g) (hm : L.Managed x) (hc : 1 ≤ s.count x) (hx : x ∉ s.tree (r * PGSIZE)) :
    ∃ g', TreeRep L r (s.drop x) g' ∧ g'.pt = g.pt ∧ (∀ y l p, g'.own y = .table r l p ↔ g.own y = .table r l p) ∧
      ∀ y, y ≠ x → (s.drop x).ram y = s.ram y := by
  have hu : g.own x = .user := by
    cases ho : g.own x with
    | outside => exact ((h.rep.page.managed x).2 hm ho).elim
    | free =>
      have h0 := h.rep.page.freeRep.zero x ((h.rep.page.mem_free x).2 ho)
      omega
    | table r' l p => exact (h.not_table hx r' l p ho).elim
    | user => rfl
    | held k => exact (h.unheld x k ho).elim
  have hown (y : Nat) (o : Owner) (ho : o ≠ .free) (ho' : o ≠ .user) :
      (g.drop x (s.count x)).own y = o ↔ g.own y = o := by
    by_cases hy : y = x
    · subst hy
      rw [g.drop_own_self, hu]
      split
      · exact iff_of_false (Ne.symm ho) (Ne.symm ho')
      · rfl
    · rw [g.drop_own hy]
  refine ⟨_, ⟨h.rep.drop hu, (hown _ _ (by simp) (by simp)).2 h.live, fun y r' l p ho => ?_, fun y k ho => ?_,
    fun y p ho => ?_⟩, rfl, fun y l p => hown _ _ (by simp) (by simp), fun y hy => s.drop_ram hy⟩
  · exact h.mine y r' l p ((hown _ _ (by simp) (by simp)).1 ho)
  · exact h.unheld y k ((hown _ _ (by simp) (by simp)).1 ho)
  · exact h.low y p ((hown _ _ (by simp) (by simp)).1 ho)

end TreeRep

/-- Whatever it is given, `kfree` panics or gives up a reference to a page that it manages. -/
theorem kfree_any (L : Layout) (pa : Nat) (s : Mem) :
    Wp (kfree L pa) AnyError
      (fun _ s' => ∃ x, pa = x * PGSIZE ∧ L.Managed x ∧ 1 ≤ s.count x ∧ s' = s.drop x) s := by
  by_cases hpa : pa % PGSIZE ≠ 0 ∨ pa < L.kend ∨ PHYSTOP ≤ pa
  · rw [kfree]
    exact .ite_pos hpa (wp_throw.2 trivial)
  · obtain ⟨hal, hk, hp⟩ : pa % PGSIZE = 0 ∧ L.kend ≤ pa ∧ pa < PHYSTOP := by omega
    obtain ⟨x, rfl⟩ : ∃ x, pa = x * PGSIZE := ⟨pa / PGSIZE, (Nat.div_mul_cancel (Nat.dvd_of_mod_eq_zero hal)).symm⟩
    by_cases hc : s.count x ≤ 0
    · rw [kfree]
      refine .ite_neg hpa ?_
      simp only [wp_bind, decreasePgreference, wp_get, page_div]
      exact .ite_pos hc (wp_throw.2 trivial)
    · have hm : L.Managed x := by
        have hkend : L.kend + PGSIZE ≤ 2 ^ 64 := Nat.le_trans (Nat.add_le_add_right L.kend_le PGSIZE) (by decide)
        constructor
        · rw [Layout.firstPage, PGROUNDUP_eq hkend, page_div]
          simp only [PGSIZE] at hk ⊢
          omega
        · rw [PHYSTOP_eq] at hp ⊢
          rw [page_div]
          exact Nat.lt_of_mul_lt_mul_right hp
      exact .of_ok (kfree_eq hm (by omega)) ⟨x, rfl, hm, by omega, rfl⟩

/-- The PTE that `mappages` writes. -/
def leafPteTo (pa : Nat) (perm : Word) : Word := PA2PTE pa ||| perm ||| PTE_V

/-- The map with the first `m` pages from `v` on mapped to `pa` and what follows it. -/
def mapFrom (f : Nat → Word) (v m pa : Nat) (perm : Word) : Nat → Word :=
  fun w => if v ≤ w ∧ w < v + m then leafPteTo (pa + (w - v) * PGSIZE) perm else f w

theorem mapFrom_succ (f : Nat → Word) (v m pa : Nat) (perm : Word) :
    mapFrom (Function.update f v (leafPteTo pa perm)) (v + 1) m (pa + PGSIZE) perm =
      mapFrom f v (m + 1) pa perm := by
  funext w
  by_cases hw : w = v
  · subst hw
    rw [mapFrom, if_neg (by omega), Function.update_self, mapFrom, if_pos (by omega), Nat.sub_self,
      Nat.zero_mul, Nat.add_zero]
  · rw [mapFrom, mapFrom, Function.update_of_ne hw]
    have hiff : v + 1 ≤ w ∧ w < v + 1 + m ↔ v ≤ w ∧ w < v + (m + 1) := by omega
    by_cases hr : v ≤ w ∧ w < v + (m + 1)
    · have hs : w - v = w - (v + 1) + 1 := by omega
      rw [if_pos (hiff.2 hr), if_pos hr, hs, Nat.succ_mul, Nat.add_assoc, Nat.add_comm PGSIZE]
    · rw [if_neg fun hc => hr (hiff.1 hc), if_neg hr]

theorem mapFrom_zero (f : Nat → Word) (v pa : Nat) (perm : Word) : mapFrom f v 0 pa perm = f := by
  funext w
  exact if_neg (by omega)

/-- Why `mappages` panics: a page that is out of range, or mapped already. -/
def Unmappable (f : Nat → Word) (v n : Nat) : Prop :=
  ∃ w, v ≤ w ∧ w ≤ v + n ∧ (MAXV ≤ w ∨ flag (f w) PTE_V = true)

namespace TreeRep

/-- One turn of the loop of `mappages`, followed by the rest of the loop. -/
theorem mapStep (h : TreeRep L r s g) (hbad : MAXV ≤ v ∨ flag (g.pt r v) PTE_V = true → ∀ e, E e)
    (hfail : v < MAXV → ∀ s' g', TreeRep L r s' g' → g'.pt r = g.pt r → Q (-1) s')
    (hok : v < MAXV → ∀ s' g', TreeRep L r s' g' → g'.pt r = Function.update (g.pt r) v (leafPteTo pa perm) →
      Wp rest E Q s') :
    Wp (do
      let pte ← PbsCow.walk (r * PGSIZE) (v * PGSIZE) true
      if pte = 0 then return -1
      if flag (← loadWord pte) PTE_V then throw .mappagesRemap
      storeWord pte (PA2PTE pa ||| perm ||| PTE_V)
      rest) E Q s := by
  by_cases hmax : MAXVA ≤ v * PGSIZE
  · rw [PbsCow.walk, if_pos hmax]
    refine wp_bind.2 (wp_throw.2 (hbad (.inl ?_) _))
    rw [MAXVA_eq] at hmax
    exact Nat.le_of_mul_le_mul_right hmax (by decide)
  have hlt : v < MAXV := by
    rw [MAXVA_eq] at hmax
    exact Nat.lt_of_mul_lt_mul_right (Nat.lt_of_not_le hmax)
  refine .bind ((h.rep.walk_true h.live (Nat.lt_of_not_le hmax)).weaken fun _ he => he.elim) ?_
  rw [page_div]
  rintro a s' ⟨g', hrep, hg, hp, ⟨rfl, _, _⟩ | ⟨q, hq, rfl⟩⟩
  · exact .ite_pos rfl (wp_pure.2 (hfail hlt s' g' (h.grow hrep hlt hg) (by rw [hp])))
  · refine .ite_neg (hrep.slot_ne_zero hq) ?_
    simp only [loadWord, storeWord, wp_bind, wp_get, wp_pure, hrep.load_pte hq, hp]
    refine .ite (fun hv => wp_throw.2 (hbad (.inr hv) _)) fun _ => ?_
    rw [wp_bind, wp_modify]
    refine hok hlt _ _ (h.grow (hrep.setPte hq _) hlt (hg.trans (.setPte hq _))) ?_
    rw [Ghost.setPte_pt_same, hp]
    rfl

theorem mappagesLoop (h : TreeRep L r s g) :
    Wp (PbsCow.mappagesLoop (r * PGSIZE) perm n (v * PGSIZE) pa) (fun _ => Unmappable (g.pt r) v n)
      (fun ret s' => ∃ g' m, TreeRep L r s' g' ∧ g'.pt r = mapFrom (g.pt r) v m pa perm ∧ v + m ≤ MAXV ∧
        (ret = 0 ∧ m = n + 1 ∨ ret = -1 ∧ m ≤ n)) s := by
  induction n generalizing s g v pa with
  | zero =>
    rw [PbsCow.mappagesLoop]
    refine h.mapStep (fun hbad _ => ⟨v, Nat.le_refl v, Nat.le_refl v, hbad⟩) (fun hlt s' g' h' hp => ?_)
      fun hlt s' g' h' hp => ?_
    · exact ⟨g', 0, h', by rw [hp, mapFrom_zero], by omega, .inr ⟨rfl, Nat.le_refl 0⟩⟩
    · exact wp_pure.2 ⟨g', 1, h', by rw [hp, ← mapFrom_succ, mapFrom_zero], hlt, .inl ⟨rfl, rfl⟩⟩
  | succ n ih =>
    rw [PbsCow.mappagesLoop]
    refine h.mapStep (fun hbad _ => ⟨v, Nat.le_refl v, by omega, hbad⟩) (fun hlt s' g' h' hp => ?_)
      fun hlt s' g' h' hp => ?_
    · exact ⟨g', 0, h', by rw [hp, mapFrom_zero], by omega, .inr ⟨rfl, Nat.zero_le _⟩⟩
    · have hv : v * PGSIZE + PGSIZE = (v + 1) * PGSIZE := (Nat.succ_mul v PGSIZE).symm
      rw [hv]
      refine ((ih h').mono ?_).weaken ?_
      · rintro ret s'' ⟨g'', m, h'', hp', hmax, hret⟩
        refine ⟨g'', m + 1, h'', by rw [hp', hp, mapFrom_succ], by omega, ?_⟩
        omega
      · rintro _ ⟨w, hw, hw', hbad⟩
        rw [hp, Function.update_of_ne (by omega)] at hbad
        exact ⟨w, by omega, by omega, hbad⟩

theorem mappages (h : TreeRep L r s g) (va size pa : Nat) (perm : Word) :
    Wp (PbsCow.mappages (r * PGSIZE) va size pa perm)
      (fun _ => size = 0 ∨ Unmappable (g.pt r) (va / PGSIZE) ((va + size - 1) / PGSIZE - va / PGSIZE))
      (fun ret s' => ∃ g' m, TreeRep L r s' g' ∧ g'.pt r = mapFrom (g.pt r) (va / PGSIZE) m pa perm ∧
        va / PGSIZE + m ≤ MAXV ∧ (ret = 0 ∧ m = (va + size - 1) / PGSIZE - va / PGSIZE + 1 ∨
          ret = -1 ∧ m ≤ (va + size - 1) / PGSIZE - va / PGSIZE)) s := by
  have hn : (PGROUNDDOWN (va + size - 1) - PGROUNDDOWN va) / PGSIZE = (va + size - 1) / PGSIZE - va / PGSIZE := by
    rw [PGROUNDDOWN, PGROUNDDOWN, ← Nat.sub_mul, page_div]
  rw [PbsCow.mappages]
  refine .ite (fun h0 => wp_throw.2 (.inl h0)) fun _ => ?_
  dsimp only
  rw [hn]
  exact h.mappagesLoop.weaken fun _ hbad => .inr hbad

end TreeRep

/-- Why `uvmunmap` panics: a page that is out of range or not mapped as a leaf, or one that may not be
freed. -/
def Unremovable (f : Nat → Word) (v n : Nat) (doFree : Bool) : Prop :=
  doFree = true ∨ ∃ w, v ≤ w ∧ w < v + n ∧ (MAXV ≤ w ∨ flag (f w) PTE_V = false ∨ PTE_FLAGS (f w) = PTE_V)

namespace TreeRep

/-- One turn of the loop of `uvmunmap`, after the PTE has been found. -/
theorem clearPte (h : TreeRep L r s g) (hq : g.own q = .table r 0 (v / 512)) :
    TreeRep L r (s.store (q * PGSIZE + 8 * (v % 512)) 0) (g.setPte r v 0) := by
  have hz : 0 < MAXV := by decide
  exact h.grow (h.rep.setPte hq 0) hz (.setPte hq 0)

theorem unmapLoop (h : TreeRep L r s g)
    (hspare : doFree = true → ∀ w, v ≤ w → w < v + n → w < MAXV → ppn (g.pt r w) ∉ s.tree (r * PGSIZE)) :
    Wp (uvmunmapLoop L (r * PGSIZE) doFree n (v * PGSIZE)) (fun _ => Unremovable (g.pt r) v n doFree)
      (fun _ s' => ∃ g', TreeRep L r s' g' ∧ g'.pt r = clearRange (g.pt r) v n) s := by
  induction n generalizing s g v with
  | zero => exact wp_pure.2 ⟨g, h, (clearRange_zero _ _).symm⟩
  | succ n ih =>
    have hv : v * PGSIZE + PGSIZE = (v + 1) * PGSIZE := (Nat.succ_mul v PGSIZE).symm
    have hbad (hb : MAXV ≤ v ∨ flag (g.pt r v) PTE_V = false ∨ PTE_FLAGS (g.pt r v) = PTE_V) :
        Unremovable (g.pt r) v (n + 1) doFree := .inr ⟨v, Nat.le_refl v, by omega, hb⟩
    simp only [uvmunmapLoop, hv]
    by_cases hmax : MAXVA ≤ v * PGSIZE
    · rw [PbsCow.walk, if_pos hmax]
      refine wp_bind.2 (wp_throw.2 (hbad (.inl ?_)))
      rw [MAXVA_eq] at hmax
      exact Nat.le_of_mul_le_mul_right hmax (by decide)
    have hlt : v < MAXV := by
      rw [MAXVA_eq] at hmax
      exact Nat.lt_of_mul_lt_mul_right (Nat.lt_of_not_le hmax)
    refine .bind ((h.rep.walk_false h.live (Nat.lt_of_not_le hmax)).weaken fun _ he => he.elim) ?_
    rw [page_div]
    rintro a _ ⟨rfl, ⟨q, hq, rfl⟩ | ⟨hno, rfl⟩⟩
    · refine .ite_neg (h.rep.slot_ne_zero hq) ?_
      have htail {s₁ : Mem} {g₁ : Ghost} (h₁ : TreeRep L r s₁ g₁) (hp : g₁.pt = g.pt)
          (hown : ∀ y l p, g₁.own y = .table r l p ↔ g.own y = .table r l p) :
          Wp (uvmunmapLoop L (r * PGSIZE) doFree n ((v + 1) * PGSIZE))
            (fun _ => Unremovable (g.pt r) v (n + 1) doFree)
            (fun _ s' => ∃ g', TreeRep L r s' g' ∧ g'.pt r = clearRange (g.pt r) v (n + 1))
            (s₁.store (q * PGSIZE + 8 * (v % 512)) 0) := by
        have h₂ := h₁.clearPte (v := v) ((hown ..).2 hq)
        have hp₂ : (g₁.setPte r v 0).pt r = Function.update (g.pt r) v 0 := by rw [Ghost.setPte_pt_same, hp]
        refine ((ih h₂ fun hd w hw hw' hlt hm => ?_).mono ?_).weaken ?_
        · obtain ⟨l, p, ho⟩ := (h₂.mem_tree _).1 hm
          rw [hp₂, Function.update_of_ne (by omega), Ghost.setPte_own, hown] at ho
          exact hspare hd w (by omega) (by omega) hlt ((h.mem_tree _).2 ⟨l, p, ho⟩)
        · rintro _ s' ⟨g', h', hp'⟩
          exact ⟨g', h', by rw [hp', hp₂, clearRange_succ]⟩
        · rintro _ (hd | ⟨w, hw, hw', hb⟩)
          · exact .inl hd
          · rw [hp₂, Function.update_of_ne (by omega)] at hb
            exact .inr ⟨w, by omega, by omega, hb⟩
      simp only [loadWord, storeWord, wp_bind, wp_get, wp_pure, h.rep.load_pte hq]
      refine .ite (fun hv => wp_throw.2 (hbad (.inr (.inl (by simpa using hv))))) fun _ => ?_
      refine .ite (fun hf => wp_throw.2 (hbad (.inr (.inr hf)))) fun _ => ?_
      refine .ite (fun hd => ?_) fun _ => wp_bind.2 (wp_modify.2 (htail h rfl fun _ _ _ => .rfl))
      refine .bind ((kfree_any L _ s).weaken fun _ _ => .inl hd) ?_
      rintro _ _ ⟨x, hx, hm, hc, rfl⟩
      have hxp : x = ppn (g.pt r v) := by rw [ppn, hx, page_div]
      obtain ⟨g₁, h₁, hp, hown, _⟩ := h.drop hm hc (hxp ▸ hspare hd v (Nat.le_refl v) (by omega) hlt)
      exact wp_bind.2 (wp_modify.2 (htail h₁ hp hown))
    · refine .ite_pos rfl (wp_throw.2 (hbad (.inr (.inl ?_))))
      rw [h.rep.table.none hno]
      decide

theorem uvmunmap (h : TreeRep L r s g)
    (hspare : doFree = true → ∀ w, va / PGSIZE ≤ w → w < va / PGSIZE + n → w < MAXV →
      ppn (g.pt r w) ∉ s.tree (r * PGSIZE)) :
    Wp (PbsCow.uvmunmap L (r * PGSIZE) va n doFree)
      (fun _ => va % PGSIZE ≠ 0 ∨ Unremovable (g.pt r) (va / PGSIZE) n doFree)
      (fun _ s' => ∃ g', TreeRep L r s' g' ∧ g'.pt r = clearRange (g.pt r) (va / PGSIZE) n) s := by
  rw [PbsCow.uvmunmap]
  refine .ite (fun hva => wp_throw.2 (.inl hva)) fun hva => ?_
  have hpage : va = va / PGSIZE * PGSIZE := (Nat.div_mul_cancel (Nat.dvd_of_mod_eq_zero (by omega))).symm
  rw [hpage, page_div]
  exact (h.unmapLoop hspare).weaken fun _ hb => .inr hb

/-- The slot of a page, once it is there, stays where it is. -/
theorem walk (h : TreeRep L r s g) (hva : va < MAXVA) (alloc : Bool) :
    Wp (PbsCow.walk (r * PGSIZE) va alloc) NoError (fun a s' => ∃ g', TreeRep L r s' g' ∧
      (∀ x l p, g.own x = .table r l p → g'.own x = .table r l p) ∧
      (a = 0 ∧ (∀ q, g.own q ≠ .table r 0 (va / PGSIZE / 512)) ∨
        ∃ q, g'.own q = .table r 0 (va / PGSIZE / 512) ∧ a = q * PGSIZE + 8 * (va / PGSIZE % 512))) s := by
  have hlt : va / PGSIZE < MAXV := Nat.div_lt_of_lt_mul (by rwa [MAXVA_eq, Nat.mul_comm] at hva)
  cases alloc with
  | false =>
    refine (h.rep.walk_false h.live hva).mono ?_
    rintro a _ ⟨rfl, ⟨q, hq, rfl⟩ | ⟨hno, rfl⟩⟩
    · exact ⟨g, h, fun _ _ _ ho => ho, .inr ⟨q, hq, rfl⟩⟩
    · exact ⟨g, h, fun _ _ _ ho => ho, .inl ⟨rfl, hno⟩⟩
  | true =>
    refine (h.rep.walk_true h.live hva).mono ?_
    rintro a s' ⟨g', hrep, hg, _, ⟨rfl, _, hno⟩ | ⟨q, hq, rfl⟩⟩
    · exact ⟨g', h.grow hrep hlt hg, fun x l p ho => (hg.keep x (by simp [ho])).trans ho, .inl ⟨rfl, hno⟩⟩
    · exact ⟨g', h.grow hrep hlt hg, fun x l p ho => (hg.keep x (by simp [ho])).trans ho, .inr ⟨q, hq, rfl⟩⟩

theorem pte (h : TreeRep L r s g) (hv : v < MAXV) : s.pte (r * PGSIZE) (v * PGSIZE) = g.pt r v :=
  h.rep.pte_page h.live hv

end TreeRep

/-- A page table that behaves as a map from the pages below `MAXVA` to PTEs. -/
structure Flat (L : Layout) (pagetable : Nat) (s : Mem) : Prop where
  /-- Two walks end at the same slot if and only if they are for addresses in the same page. -/
  walk : ∀ va₁ va₂ alloc₁ alloc₂, va₁ < MAXVA → va₂ < MAXVA → Wp (do
    let a₁ ← PbsCow.walk pagetable va₁ alloc₁
    let a₂ ← PbsCow.walk pagetable va₂ alloc₂
    return (a₁, a₂)) NoError (fun a _ => a.1 ≠ 0 → (a.2 = a.1 ↔ va₁ >>> 12 = va₂ >>> 12)) s
  mappages : ∀ va size pa perm, va + size ≤ 2 ^ 64 → Wp (PbsCow.mappages pagetable va size pa perm)
    (fun _ => size = 0 ∨ ∃ v, va / PGSIZE ≤ v ∧ v ≤ (va + size - 1) / PGSIZE ∧
      (MAXV ≤ v ∨ flag (s.pte pagetable (v * PGSIZE)) PTE_V = true))
    (fun ret s' => (ret = 0 ∨ ret = -1) ∧ (∀ v, v < MAXV → v < va / PGSIZE ∨ (va + size - 1) / PGSIZE < v →
        s'.pte pagetable (v * PGSIZE) = s.pte pagetable (v * PGSIZE)) ∧
      (ret = 0 → ∀ k, va / PGSIZE + k ≤ (va + size - 1) / PGSIZE →
        s'.pte pagetable ((va / PGSIZE + k) * PGSIZE) = PA2PTE (pa + k * PGSIZE) ||| perm ||| PTE_V)) s
  uvmunmap : ∀ va npages doFree, TableOp.Proper pagetable s (.uvmunmap va npages doFree) →
    Wp (PbsCow.uvmunmap L pagetable va npages doFree)
      (fun _ => va % PGSIZE ≠ 0 ∨ doFree = true ∨ ∃ v, va / PGSIZE ≤ v ∧ v < va / PGSIZE + npages ∧
        (MAXV ≤ v ∨ flag (s.pte pagetable (v * PGSIZE)) PTE_V = false ∨
          PTE_FLAGS (s.pte pagetable (v * PGSIZE)) = PTE_V))
      (fun _ s' => ∀ v, v < MAXV → s'.pte pagetable (v * PGSIZE) =
        if va / PGSIZE ≤ v ∧ v < va / PGSIZE + npages then 0 else s.pte pagetable (v * PGSIZE)) s
  freewalk : (∀ v, v < MAXV → flag (s.pte pagetable (v * PGSIZE)) PTE_V = false) →
    Wp (PbsCow.freewalk L 3 pagetable) NoError (fun _ s' => ∃ freed free, freed.Perm (s.tree pagetable) ∧
      Chain s.ram s.freelist free ∧ Chain s'.ram s'.freelist (freed ++ free) ∧ (freed ++ free).Nodup ∧
      ∀ x, x ∉ s.tree pagetable → s'.count x = s.count x) s

namespace TreeRep

theorem flat (h : TreeRep L r s g) : Flat L (r * PGSIZE) s where
  walk va₁ va₂ alloc₁ alloc₂ h₁ h₂ := by
    refine .bind (h.walk h₁ alloc₁) ?_
    rintro a₁ s₁ ⟨g₁, hr₁, _, ha₁⟩
    refine .bind (hr₁.walk h₂ alloc₂) ?_
    rintro a₂ s₂ ⟨g₂, hr₂, hkeep, ha₂⟩
    refine wp_pure.2 fun hne => ?_
    have hshift (va : Nat) : va >>> 12 = va / PGSIZE := Nat.shiftRight_eq_div_pow va 12
    rw [hshift, hshift]
    rcases ha₁ with ⟨rfl, _⟩ | ⟨q₁, hq₁, rfl⟩
    · exact (hne rfl).elim
    rcases ha₂ with ⟨rfl, hno⟩ | ⟨q₂, hq₂, rfl⟩
    · refine iff_of_false (fun he => hne he.symm) fun hv => hno q₁ ?_
      rw [← hv]
      exact hq₁
    · have hq := hkeep _ _ _ hq₁
      constructor
      · intro he
        dsimp only at he
        have hlt₁ := Nat.mod_lt (va₁ / PGSIZE) (by decide : 0 < 512)
        have hlt₂ := Nat.mod_lt (va₂ / PGSIZE) (by decide : 0 < 512)
        have hqq : q₂ = q₁ := by
          rw [← slot_div q₂ hlt₂, he, slot_div q₁ hlt₁]
        subst hqq
        rw [hq₂, Owner.table.injEq] at hq
        omega
      · intro hv
        rw [hv] at hq
        have hqq := hr₂.rep.table.unique hq hq₂
        rw [hv, hqq]
  mappages va size pa perm _ := by
    by_cases h0 : size = 0
    · rw [PbsCow.mappages]
      exact .ite_pos h0 (wp_throw.2 (.inl h0))
    have hle : va / PGSIZE ≤ (va + size - 1) / PGSIZE := Nat.div_le_div_right (by omega)
    refine ((h.mappages va size pa perm).mono ?_).weaken ?_
    · rintro ret s' ⟨g', m, h', hp, hmax, hret⟩
      refine ⟨by omega, fun v hv hout => ?_, fun hr k hk => ?_⟩
      · rw [h'.pte hv, h.pte hv, hp, mapFrom, if_neg (by omega)]
      · have hv : va / PGSIZE + k < MAXV := by omega
        rw [h'.pte hv, hp, mapFrom, if_pos (by omega), Nat.add_sub_cancel_left]
        rfl
    · rintro _ (hs | ⟨w, hw, hw', hb⟩)
      · exact (h0 hs).elim
      · refine .inr ⟨w, hw, by omega, ?_⟩
        by_cases hmax : MAXV ≤ w
        · exact .inl hmax
        · rwa [h.pte (by omega)]
  uvmunmap va npages doFree hproper := by
    have hspare (hd : doFree = true) (w : Nat) (hw : va / PGSIZE ≤ w) (hw' : w < va / PGSIZE + npages)
        (hmax : w < MAXV) : ppn (g.pt r w) ∉ s.tree (r * PGSIZE) := by
      rw [← h.pte hmax]
      exact hproper.2 hd w hw hw' hmax
    refine ((h.uvmunmap hspare).mono ?_).weaken ?_
    · rintro _ s' ⟨g', h', hp⟩ v hv
      rw [h'.pte hv, h.pte hv, hp, clearRange]
    · rintro _ (hva | hd | ⟨w, hw, hw', hb⟩)
      · exact .inl hva
      · exact .inr (.inl hd)
      · refine .inr (.inr ⟨w, hw, hw', ?_⟩)
        by_cases hmax : MAXV ≤ w
        · exact .inl hmax
        · rwa [h.pte (by omega)]
  freewalk h0 := by
    have hpage := h.rep.page
    have htree : s.tree (r * PGSIZE) = tablePages s.ram 2 r := by rw [Mem.tree, page_div]
    have hloose : Loose L s g.free (tablePages s.ram 2 r) := by
      refine ⟨hpage.freeRep, h.rep.nodup_tablePages h.live, fun y hy => ?_, fun y hy => ?_, fun y hy hf => ?_⟩ <;>
        obtain ⟨l, p, ho⟩ := (h.rep.mem_tablePages_root h.live y).1 hy
      · exact (hpage.managed y).1 (by simp [ho])
      · exact hpage.count_table y r l p ho
      · rw [hpage.mem_free, ho] at hf
        cases hf
    have hnone (v : Nat) : flag (g.pt r v) PTE_V = false := by
      by_cases hv : v < MAXV
      · rw [← h.pte hv]
        exact h0 v hv
      · rw [h.rep.table.none fun x ho => ?_]
        · decide
        · have hlow := h.low x _ ho
          simp only [MAXV] at hv hlow
          omega
    refine (freewalk_spec hloose (h.rep.leafless h.live hnone)).mono ?_
    rintro _ s' ⟨⟨T, hperm, hf⟩, _, hcount⟩
    rw [htree]
    exact ⟨T, g.free, hperm, hpage.freeRep.chain, hf.chain, hf.nodup, hcount⟩

/-- What every operation on the table keeps. -/
theorem run (h : TreeRep L r s g) (op : TableOp) (hop : op.Proper (r * PGSIZE) s) :
    Wp (op.run L (r * PGSIZE)) AnyError (fun _ s' => ∃ g', TreeRep L r s' g') s := by
  cases op with
  | kalloc => exact .bind (h.kalloc.weaken fun _ he => he.elim) fun _ _ h' => wp_pure.2 h'
  | kfree pa =>
    apply (kfree_any L pa s).mono
    rintro _ _ ⟨x, rfl, hm, hc, rfl⟩
    have hx : x ∉ s.tree (r * PGSIZE) := by rwa [TableOp.Proper, page_div] at hop
    obtain ⟨g', h', _⟩ := h.drop hm hc hx
    exact ⟨g', h'⟩
  | walk va =>
    rw [TableOp.run]
    by_cases hva : va < MAXVA
    · apply Wp.bind ((h.walk hva true).weaken fun _ he => he.elim)
      rintro _ s' ⟨g', h', _⟩
      exact wp_pure.2 ⟨g', h'⟩
    · rw [PbsCow.walk, if_pos (Nat.le_of_not_lt hva)]
      exact wp_bind.2 (wp_throw.2 trivial)
  | mappages va size pa perm =>
    apply Wp.bind ((h.mappages va size pa perm).weaken fun _ _ => trivial)
    rintro _ s' ⟨g', _, h', _⟩
    exact wp_pure.2 ⟨g', h'⟩
  | uvmunmap va npages doFree =>
    have hspare (hd : doFree = true) (w : Nat) (hw : va / PGSIZE ≤ w) (hw' : w < va / PGSIZE + npages)
        (hmax : w < MAXV) : ppn (g.pt r w) ∉ s.tree (r * PGSIZE) := by
      rw [← h.pte hmax]
      exact hop.2 hd w hw hw' hmax
    apply ((h.uvmunmap hspare).weaken fun _ _ => trivial).mono
    rintro _ s' ⟨g', h', _⟩
    exact ⟨g', h'⟩

end TreeRep

end PbsCow

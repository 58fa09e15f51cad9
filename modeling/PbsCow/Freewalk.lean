import PbsCow.Copyout

namespace PbsCow
set_option autoImplicit true

/-- The page-table pages that can be reached from page `x` at a given level. -/
def tablePages (ram : Nat → Page) : Nat → Nat → List Nat
  | 0, x => [x]
  | l + 1, x => x :: (List.range' 0 512).flatMap fun i =>
      if flag (ram x i) PTE_V then tablePages ram l (ppn (ram x i)) else []

/-- No leaf PTE is left below page `x`. -/
def Leafless (ram : Nat → Page) : Nat → Nat → Prop
  | 0, x => ∀ i, i < 512 → flag (ram x i) PTE_V = false
  | l + 1, x => ∀ i, i < 512 → flag (ram x i) PTE_V = true →
      flag (ram x i) (PTE_R ||| PTE_W ||| PTE_X) = false ∧ Leafless ram l (ppn (ram x i))

/-- The page-table pages below entry `i` of page `x`. -/
def kids (ram : Nat → Page) (l x i : Nat) : List Nat :=
  if flag (ram x i) PTE_V then tablePages ram l (ppn (ram x i)) else []

theorem tablePages_succ (ram : Nat → Page) (l x : Nat) :
    tablePages ram (l + 1) x = x :: (List.range' 0 512).flatMap (kids ram l x) := rfl

theorem mem_tablePages_self (ram : Nat → Page) (l x : Nat) : x ∈ tablePages ram l x := by
  cases l <;> simp [tablePages]

theorem tablePages_congr (h : ∀ y ∈ tablePages ram l x, ram' y = ram y) :
    tablePages ram' l x = tablePages ram l x := by
  induction l generalizing x with
  | zero => rfl
  | succ l ih =>
    rw [tablePages_succ, tablePages_succ]
    refine congrArg _ (List.flatMap_congr fun i hi => ?_)
    have hx := h x (mem_tablePages_self _ _ _)
    rw [kids, kids, hx]
    split
    · next hv =>
      refine ih fun y hy => h y ?_
      rw [tablePages_succ]
      refine List.mem_cons_of_mem _ (List.mem_flatMap.2 ⟨i, hi, ?_⟩)
      rwa [kids, if_pos hv]
    · rfl

theorem Leafless.congr (hl : Leafless ram l x) (h : ∀ y ∈ tablePages ram l x, ram' y = ram y) :
    Leafless ram' l x := by
  induction l generalizing x with
  | zero =>
    intro i hi
    rw [h x (mem_tablePages_self _ _ _)]
    exact hl i hi
  | succ l ih =>
    intro i hi hv
    rw [h x (mem_tablePages_self _ _ _)] at hv ⊢
    obtain ⟨h1, h2⟩ := hl i hi hv
    refine ⟨h1, ih h2 fun y hy => h y ?_⟩
    rw [tablePages_succ]
    refine List.mem_cons_of_mem _ (List.mem_flatMap.2 ⟨i, List.mem_range'.2 ⟨i, by omega⟩, ?_⟩)
    rwa [kids, if_pos hv]

/-- The pages `T` are allocated, once each, and are not on the free list. -/
structure Loose (L : Layout) (s : Mem) (free T : List Nat) : Prop where
  freeRep : FreeRep L s free
  nodup : T.Nodup
  managed : ∀ y ∈ T, L.Managed y
  one : ∀ y ∈ T, s.count y = 1
  disjoint : ∀ y ∈ T, y ∉ free

/-- The pages `T` have been put on the free list, and nothing else has changed. -/
structure Freed (L : Layout) (s s' : Mem) (free T : List Nat) : Prop where
  list : ∃ T', T'.Perm T ∧ FreeRep L s' (T' ++ free)
  ram : ∀ y, y ∉ T → s'.ram y = s.ram y
  count : ∀ y, y ∉ T → s'.count y = s.count y

theorem Loose.release (h : Loose L s free (x :: T)) : FreeRep L (s.release x) (x :: free) :=
  h.freeRep.release (h.managed x (by simp)) (h.disjoint x (by simp))

theorem freewalkLoop_leaf (hl : ∀ j, i ≤ j → j < i + n → flag (s.ram x j) PTE_V = false)
    (hn : i + n ≤ 512) :
    Wp (freewalkLoop free (x * PGSIZE) n i) NoError (fun _ s' => s = s') s := by
  induction n generalizing i with
  | zero => exact wp_pure.2 rfl
  | succ n ih =>
    have hv := hl i (by omega) (by omega)
    rw [freewalkLoop]
    simp only [loadWord, wp_bind, wp_get, wp_pure, Mem.load_slot s x (show i < 512 by omega), hv]
    exact ih (fun j hj hj' => hl j (by omega) (by omega)) (by omega)

/-- The entries from `i` on of page `x`, at level `l + 1`, have been cleared and all that was below
them freed; page `x` itself is the only other page that has changed. -/
structure Cleared (L : Layout) (s s' : Mem) (free K : List Nat) (x : Nat) : Prop where
  list : ∃ T, T.Perm K ∧ FreeRep L s' (T ++ free)
  ram : ∀ y, y ∉ K → y ≠ x → s'.ram y = s.ram y
  count : ∀ y, y ∉ K → s'.count y = s.count y

theorem Loose.left (h : Loose L s free (A ++ B)) : Loose L s free A where
  freeRep := h.freeRep
  nodup := (List.nodup_append.1 h.nodup).1
  managed y hy := h.managed y (List.mem_append_left _ hy)
  one y hy := h.one y (List.mem_append_left _ hy)
  disjoint y hy := h.disjoint y (List.mem_append_left _ hy)

/-- Once `A` is freed and page `x` rewritten, `B` is still allocated. -/
theorem Loose.right (h : Loose L s free (A ++ B)) (hx : x ∉ A) (hxf : x ∉ free)
    (hp : A'.Perm A) (hf : FreeRep L s' (A' ++ free))
    (hc : ∀ y, y ∉ A → s'.count y = s.count y) : Loose L (s'.setPage x p) (A' ++ free) B := by
  have hdis {y : Nat} (hy : y ∈ B) : y ∉ A := fun hy' =>
    (List.nodup_append.1 h.nodup).2.2 y hy' y hy rfl
  refine ⟨hf.setPage ?_, (List.nodup_append.1 h.nodup).2.1,
    fun y hy => h.managed y (List.mem_append_right _ hy), fun y hy => ?_, fun y hy hm => ?_⟩
  · rw [List.mem_append, hp.mem_iff]
    rintro (hm | hm)
    · exact hx hm
    · exact hxf hm
  · exact (hc y (hdis hy)).trans (h.one y (List.mem_append_right _ hy))
  · rcases List.mem_append.1 hm with hm | hm
    · exact hdis hy (hp.mem_iff.1 hm)
    · exact h.disjoint y (List.mem_append_right _ hy) hm

theorem kids_congr (hj : ram' x j = ram x j) (h : ∀ y ∈ kids ram l x j, ram' y = ram y) :
    kids ram' l x j = kids ram l x j := by
  rw [kids, kids, hj]
  split
  · next hv =>
    refine tablePages_congr fun y hy => h y ?_
    rwa [kids, if_pos hv]
  · rfl

theorem freewalkLoop_spec
    (ihf : ∀ {s : Mem} {free : List Nat} {q : Nat}, Loose L s free (tablePages s.ram l q) →
      Leafless s.ram l q → Wp (freewalk L (l + 1) (q * PGSIZE)) NoError
        (fun _ s' => Freed L s s' free (tablePages s.ram l q)) s)
    (h : Loose L s free ((List.range' i n).flatMap (kids s.ram l x)))
    (hx : x ∉ (List.range' i n).flatMap (kids s.ram l x)) (hxf : x ∉ free)
    (hl : ∀ j, i ≤ j → j < i + n → flag (s.ram x j) PTE_V = true →
      flag (s.ram x j) (PTE_R ||| PTE_W ||| PTE_X) = false ∧ Leafless s.ram l (ppn (s.ram x j)))
    (hn : i + n ≤ 512) :
    Wp (freewalkLoop (freewalk L (l + 1)) (x * PGSIZE) n i) NoError (fun _ s' =>
      Cleared L s s' free ((List.range' i n).flatMap (kids s.ram l x)) x) s := by
  induction n generalizing i s free with
  | zero => exact wp_pure.2 ⟨⟨[], .refl _, h.freeRep⟩, fun _ _ _ => rfl, fun _ _ => rfl⟩
  | succ n ih =>
    have hi : i < 512 := by omega
    rw [List.range'_succ, List.flatMap_cons] at h hx ⊢
    rw [freewalkLoop]
    simp only [loadWord, wp_bind, wp_get, wp_pure, Mem.load_slot s x hi]
    rw [List.mem_append, not_or] at hx
    cases hv : flag (s.ram x i) PTE_V with
    | false =>
      have hk : kids s.ram l x i = [] := by simp [kids, hv]
      rw [hk, List.nil_append] at h ⊢
      refine .ite_neg (by simp) (.ite_neg (by simp) ?_)
      exact ih h hx.2 hxf (fun j hj hj' => hl j (by omega) (by omega)) (by omega)
    | true =>
      have hk : kids s.ram l x i = tablePages s.ram l (ppn (s.ram x i)) := by simp [kids, hv]
      obtain ⟨hleaf, hless⟩ := hl i (by omega) (by omega) hv
      have hsub := h.left
      rw [hk] at hsub
      refine .ite_pos (by simp [hleaf]) ?_
      rw [PTE2PA_eq]
      refine .bind (ihf hsub hless) ?_
      rintro _ s₁ ⟨⟨T₁, hp₁, hf₁⟩, hr₁, hc₁⟩
      rw [← hk] at hp₁ hr₁ hc₁
      simp only [storeWord, wp_bind, wp_modify, Mem.store_slot s₁ x hi]
      have hloose := h.right (p := Function.update (s₁.ram x) i 0) hx.1 hxf hp₁ hf₁ hc₁
      have hram {y : Nat} (hy : y ∉ kids s.ram l x i) (hyx : y ≠ x) :
          (s₁.setPage x (Function.update (s₁.ram x) i 0)).ram y = s.ram y :=
        (Function.update_of_ne hyx _ _).trans (hr₁ y hy)
      have hrow {j : Nat} (hj : j ≠ i) :
          (s₁.setPage x (Function.update (s₁.ram x) i 0)).ram x j = s.ram x j := by
        rw [show (s₁.setPage x (Function.update (s₁.ram x) i 0)).ram x =
          Function.update (s₁.ram x) i 0 from Function.update_self _ _ _,
          Function.update_of_ne hj, hr₁ x hx.1]
      have hsame {j y : Nat} (hj : i + 1 ≤ j) (hj' : j < i + 1 + n) (hy : y ∈ kids s.ram l x j) :
          (s₁.setPage x (Function.update (s₁.ram x) i 0)).ram y = s.ram y := by
        have hmem : y ∈ (List.range' (i + 1) n).flatMap (kids s.ram l x) :=
          List.mem_flatMap.2 ⟨j, List.mem_range'_1.2 ⟨hj, hj'⟩, hy⟩
        refine hram (fun hy' => ?_) (fun he => hx.2 (he ▸ hmem))
        exact (List.nodup_append.1 h.nodup).2.2 y hy' y hmem rfl
      have hK : (List.range' (i + 1) n).flatMap
          (kids (s₁.setPage x (Function.update (s₁.ram x) i 0)).ram l x) =
          (List.range' (i + 1) n).flatMap (kids s.ram l x) := by
        refine List.flatMap_congr fun j hj => ?_
        obtain ⟨hj, hj'⟩ := List.mem_range'_1.1 hj
        exact kids_congr (hrow (by omega)) fun y hy => hsame hj hj' hy
      rw [← hK] at hloose
      refine (ih hloose (hK ▸ hx.2) ?_ ?_ (by omega)).mono ?_
      · rw [List.mem_append, hp₁.mem_iff]
        rintro (hm | hm)
        · exact hx.1 hm
        · exact hxf hm
      · intro j hj hj' hvj
        rw [hrow (by omega)] at hvj ⊢
        obtain ⟨h1, h2⟩ := hl j (by omega) (by omega) hvj
        refine ⟨h1, h2.congr fun y hy => hsame hj hj' ?_⟩
        rwa [kids, if_pos hvj]
      · rintro _ s' ⟨⟨T, hp, hf⟩, hr, hc⟩
        rw [hK] at hp hr hc
        refine ⟨⟨T ++ T₁, ?_, by rwa [List.append_assoc]⟩, fun y hy hyx => ?_, fun y hy => ?_⟩
        · exact (List.perm_append_comm).trans (hp₁.append hp)
        · rw [List.mem_append, not_or] at hy
          exact (hr y hy.2 hyx).trans (hram hy.1 hyx)
        · rw [List.mem_append, not_or] at hy
          exact (hc y hy.2).trans (hc₁ y hy.1)

/-- `freewalk` gives back every page-table page below `x`, and changes nothing else. -/
theorem freewalk_spec (h : Loose L s free (tablePages s.ram l x)) (hl : Leafless s.ram l x) :
    Wp (freewalk L (l + 1) (x * PGSIZE)) NoError
      (fun _ s' => Freed L s s' free (tablePages s.ram l x)) s := by
  induction l generalizing s free x with
  | zero =>
    rw [freewalk]
    refine .bind (freewalkLoop_leaf (fun j _ hj => hl j (by omega)) (by omega)) ?_
    rintro _ _ rfl
    have h1 : s.count x = 1 := h.one x (by simp [tablePages])
    have hk := kfree_eq (h.managed x (by simp [tablePages])) h1.ge
    rw [Mem.drop, if_pos h1] at hk
    refine .of_ok hk ⟨⟨[x], .refl _, h.release⟩, fun y hy => ?_, fun y hy => ?_⟩
    · exact Function.update_of_ne (by simpa [tablePages] using hy) _ _
    · exact Function.update_of_ne (by simpa [tablePages] using hy) _ _
  | succ l ih =>
    rw [tablePages_succ] at h ⊢
    obtain ⟨hxK, _⟩ := List.nodup_cons.1 h.nodup
    have hxf : x ∉ free := h.disjoint x (by simp)
    have hK : Loose L s free ((List.range' 0 512).flatMap (kids s.ram l x)) :=
      ⟨h.freeRep, (List.nodup_cons.1 h.nodup).2, fun y hy => h.managed y (List.mem_cons_of_mem _ hy),
        fun y hy => h.one y (List.mem_cons_of_mem _ hy),
        fun y hy => h.disjoint y (List.mem_cons_of_mem _ hy)⟩
    rw [freewalk]
    refine .bind (freewalkLoop_spec ih hK hxK hxf (fun j _ hj => hl j (by omega)) (by omega)) ?_
    rintro _ s₁ ⟨⟨T, hp, hf⟩, hr, hc⟩
    have h1 : s₁.count x = 1 := (hc x hxK).trans (h.one x (by simp))
    have hm := h.managed x (by simp)
    have hk := kfree_eq hm h1.ge
    rw [Mem.drop, if_pos h1] at hk
    have hx : x ∉ T ++ free := by
      rw [List.mem_append, hp.mem_iff]
      rintro (hx | hx)
      · exact hxK hx
      · exact hxf hx
    refine .of_ok hk ⟨⟨x :: T, hp.cons x, hf.release hm hx⟩, fun y hy => ?_, fun y hy => ?_⟩
    · rw [List.mem_cons, not_or] at hy
      exact (Function.update_of_ne hy.1 _ _).trans (hr y hy.2 hy.1)
    · rw [List.mem_cons, not_or] at hy
      exact (Function.update_of_ne hy.1 _ _).trans (hc y hy.2)

end PbsCow

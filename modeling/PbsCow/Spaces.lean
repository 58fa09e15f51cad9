import PbsCow.Mappages
import Mathlib.Data.Finset.Card
import Mathlib.Data.Finset.Prod

namespace PbsCow
set_option autoImplicit true

/-- The virtual page numbers of `TRAPFRAME` and of the end of the address space. -/
def TFV : Nat := 67108862
def MAXV : Nat := 67108864

theorem TRAPFRAME_eq : TRAPFRAME = TFV * PGSIZE := rfl

theorem TRAMPOLINE_eq : TRAMPOLINE = (TFV + 1) * PGSIZE := rfl

def Maps (e : Word) (x : Nat) : Prop := e ≠ 0 ∧ ppn e = x

instance : Decidable (Maps e x) := inferInstanceAs (Decidable (_ ∧ _))

/-- The user mappings of page `x` in the address spaces with roots in `S`. -/
def mappers (g : Ghost) (S : Finset Nat) (x : Nat) : Finset (Nat × Nat) :=
  (S ×ˢ Finset.range TFV).filter fun p => Maps (g.pt p.1 p.2) x

theorem mem_mappers : (r, v) ∈ mappers g S x ↔ r ∈ S ∧ v < TFV ∧ Maps (g.pt r v) x := by
  simp [mappers, and_assoc]

theorem mappers_congr (h : ∀ r ∈ S, ∀ v, v < TFV → (Maps (k.pt r v) x ↔ Maps (g.pt r v) x)) :
    mappers k S x = mappers g S x := by
  ext ⟨r, v⟩
  simp only [mem_mappers]
  constructor
  · rintro ⟨hr, hv, hm⟩
    exact ⟨hr, hv, (h r hr v hv).1 hm⟩
  · rintro ⟨hr, hv, hm⟩
    exact ⟨hr, hv, (h r hr v hv).2 hm⟩

theorem mappers_setPte_of_maps (hr : r ∈ S) (hv : v < TFV) (hm : Maps e x) :
    mappers (g.setPte r v e) S x = insert (r, v) (mappers g S x) := by
  ext ⟨r', v'⟩
  simp only [mem_mappers, Finset.mem_insert, Prod.mk.injEq, Ghost.setPte_pt]
  by_cases h : r' = r ∧ v' = v
  · obtain ⟨rfl, rfl⟩ := h
    simp [hr, hv, hm]
  · simp [h]

theorem mappers_setPte_of_not_maps (hm : ¬ Maps e x) :
    mappers (g.setPte r v e) S x = (mappers g S x).erase (r, v) := by
  ext ⟨r', v'⟩
  simp only [mem_mappers, Finset.mem_erase, ne_eq, Prod.mk.injEq, Ghost.setPte_pt]
  by_cases h : r' = r ∧ v' = v
  · simp [h, hm]
  · simp [h]

/-- The flags of a PTE that maps a user page. -/
structure UserFlags (f : Word) : Prop where
  lt : f.toNat < 1024
  valid : f.getLsbD 0 = true
  readable : f.getLsbD 1 = true
  exclusive : f.getLsbD 2 = true → f.getLsbD 8 = false

/-- A user leaf PTE is built from a physical page number and its flags. -/
structure UserLeaf (e : Word) : Prop where
  eq : e = mkPte (ppn e) (PTE_FLAGS e)
  flags : UserFlags (PTE_FLAGS e)

theorem UserFlags.leaf (h : UserFlags f) (hx : x < 2 ^ 44) : UserLeaf (mkPte x f) := by
  refine ⟨?_, ?_⟩
  · rw [ppn_mkPte hx h.lt, PTE_FLAGS_mkPte hx h.lt]
  · rwa [PTE_FLAGS_mkPte hx h.lt]

theorem UserFlags.mkPte_ne_zero (h : UserFlags f) (x : Nat) : mkPte x f ≠ 0 := by
  intro h0
  have hb := getLsbD_mkPte (i := 0) x f (by decide)
  rw [h0, h.valid] at hb
  simp at hb

theorem UserFlags.maps (h : UserFlags f) (hx : x < 2 ^ 44) : Maps (mkPte x f) y ↔ x = y := by
  rw [Maps, ppn_mkPte hx h.lt]
  exact and_iff_right (h.mkPte_ne_zero x)

theorem UserLeaf.flag_V (h : UserLeaf e) : flag e PTE_V = true := by
  rw [PbsCow.flag_V, ← getLsbD_PTE_FLAGS e (by decide)]
  exact h.flags.valid

theorem UserLeaf.not_V (h : UserLeaf e) : PTE_FLAGS e ≠ PTE_V := by
  intro he
  have hb := h.flags.readable
  rw [he] at hb
  exact absurd hb (by decide)

/-- Page counts and exclusiveness across the address spaces with roots in `S`. -/
structure SpaceInv (s : Mem) (g : Ghost) (S : Finset Nat) : Prop where
  live : ∀ r ∈ S, g.Live r
  leaf : ∀ r ∈ S, ∀ v, v < TFV → g.pt r v ≠ 0 → UserLeaf (g.pt r v)
  target : ∀ r ∈ S, ∀ v, v < TFV → g.pt r v ≠ 0 → g.own (ppn (g.pt r v)) = .user
  count : ∀ x, g.own x = .user → s.count x = (mappers g S x).card
  excl : ∀ r ∈ S, ∀ v, v < TFV → (g.pt r v).getLsbD 2 = true → ∀ r' ∈ S, ∀ v', v' < TFV →
    Maps (g.pt r' v') (ppn (g.pt r v)) → r' = r ∧ v' = v
  inj : ∀ r ∈ S, ∀ v v', v < TFV → v' < TFV → g.pt r v ≠ 0 → Maps (g.pt r v') (ppn (g.pt r v)) →
    v' = v
  high : ∀ r ∈ S, ∀ v, MAXV ≤ v → g.pt r v = 0

theorem SpaceInv.congr (h : SpaceInv s g S) (hlive : ∀ r ∈ S, g'.Live r)
    (hpt : ∀ r ∈ S, ∀ v, v < TFV → g'.pt r v = g.pt r v)
    (hhigh : ∀ r ∈ S, ∀ v, MAXV ≤ v → g'.pt r v = g.pt r v)
    (hown : ∀ x, g'.own x = .user ↔ g.own x = .user)
    (hcount : ∀ x, g.own x = .user → s'.count x = s.count x) : SpaceInv s' g' S := by
  obtain ⟨_, hleaf, htarget, hc, hexcl, hinj, hh⟩ := h
  refine ⟨hlive, fun r hr v hv => ?_, fun r hr v hv => ?_, fun x hx => ?_, ?_, ?_, ?_⟩
  · rw [hpt r hr v hv]
    exact hleaf r hr v hv
  · rw [hpt r hr v hv, hown]
    exact htarget r hr v hv
  · rw [hcount x ((hown x).1 hx), hc x ((hown x).1 hx)]
    rw [mappers_congr (k := g') (g := g) fun r hr v hv => by rw [hpt r hr v hv]]
  · intro r hr v hv hw r' hr' v' hv' hm
    rw [hpt r hr v hv] at hw hm
    rw [hpt r' hr' v' hv'] at hm
    exact hexcl r hr v hv hw r' hr' v' hv' hm
  · intro r hr v v' hv hv' hne hm
    rw [hpt r hr v hv] at hne hm
    rw [hpt r hr v' hv'] at hm
    exact hinj r hr v v' hv hv' hne hm
  · intro r hr v hv
    rw [hhigh r hr v hv]
    exact hh r hr v hv

theorem SpaceInv.no_mapper (h : SpaceInv s g S) (hx : g.own x ≠ .user) : mappers g S x = ∅ := by
  ext ⟨r, v⟩
  simp only [mem_mappers, Finset.notMem_empty, iff_false]
  rintro ⟨hr, hv, hne, rfl⟩
  exact hx (h.target r hr v hv hne)

/-- What one changed PTE leaves to prove. -/
theorem SpaceInv.setPte {s s' : Mem} {g k : Ghost} {e : Word} (h : SpaceInv s g S)
    (hv : v < TFV) (hlive : ∀ r ∈ S, k.Live r) (hpt : k.pt = (g.setPte r v e).pt)
    (hother : ∀ r' ∈ S, ∀ v', v' < TFV → ¬ (r' = r ∧ v' = v) → g.pt r' v' ≠ 0 →
      k.own (ppn (g.pt r' v')) = .user)
    (hleaf : e ≠ 0 → UserLeaf e ∧ k.own (ppn e) = .user)
    (hcount : ∀ x, k.own x = .user → s'.count x = (mappers (g.setPte r v e) S x).card)
    (hexcl : e.getLsbD 2 = true → ∀ r' ∈ S, ∀ v', v' < TFV → Maps (g.pt r' v') (ppn e) →
      r' = r ∧ v' = v)
    (hexcl' : e ≠ 0 → ∀ r' ∈ S, ∀ v', v' < TFV → (g.pt r' v').getLsbD 2 = true →
      ppn e = ppn (g.pt r' v') → r' = r ∧ v' = v)
    (hinj : e ≠ 0 → ∀ v', v' < TFV → Maps (g.pt r v') (ppn e) → v' = v) :
    SpaceInv s' k S := by
  have hcases (r' v' : Nat) : (r' = r ∧ v' = v ∧ k.pt r' v' = e) ∨
      (¬ (r' = r ∧ v' = v) ∧ k.pt r' v' = g.pt r' v') := by
    rw [hpt, Ghost.setPte_pt]
    by_cases hc : r' = r ∧ v' = v
    · exact .inl ⟨hc.1, hc.2, if_pos hc⟩
    · exact .inr ⟨hc, if_neg hc⟩
  have hmap (x : Nat) : mappers k S x = mappers (g.setPte r v e) S x :=
    mappers_congr fun r' _ v' _ => by rw [hpt]
  refine ⟨hlive, fun r' hr' v' hv' hne => ?_, fun r' hr' v' hv' hne => ?_, fun x hx => ?_,
    fun r₁ hr₁ v₁ hv₁ hw r₂ hr₂ v₂ hv₂ hm => ?_, fun r' hr' v₁ v₂ hv₁ hv₂ hne hm => ?_,
    fun r' hr' v' hv' => ?_⟩
  · rcases hcases r' v' with ⟨_, _, he⟩ | ⟨_, he⟩
    · rw [he] at hne ⊢
      exact (hleaf hne).1
    · rw [he] at hne ⊢
      exact h.leaf r' hr' v' hv' hne
  · rcases hcases r' v' with ⟨_, _, he⟩ | ⟨hc, he⟩
    · rw [he] at hne ⊢
      exact (hleaf hne).2
    · rw [he] at hne ⊢
      exact hother r' hr' v' hv' hc hne
  · rw [hmap x]
    exact hcount x hx
  · rcases hcases r₁ v₁ with ⟨h1, h2, he₁⟩ | ⟨hc₁, he₁⟩ <;>
      rcases hcases r₂ v₂ with ⟨h3, h4, he₂⟩ | ⟨hc₂, he₂⟩ <;> rw [he₁] at hw hm <;> rw [he₂] at hm
    · exact ⟨h3.trans h1.symm, h4.trans h2.symm⟩
    · exact (hc₂ (hexcl hw r₂ hr₂ v₂ hv₂ hm)).elim
    · exact (hc₁ (hexcl' hm.1 r₁ hr₁ v₁ hv₁ hw hm.2)).elim
    · exact h.excl r₁ hr₁ v₁ hv₁ hw r₂ hr₂ v₂ hv₂ hm
  · rcases hcases r' v₁ with ⟨h1, h2, he₁⟩ | ⟨hc₁, he₁⟩ <;>
      rcases hcases r' v₂ with ⟨h3, h4, he₂⟩ | ⟨hc₂, he₂⟩ <;> rw [he₁] at hne hm <;> rw [he₂] at hm
    · exact h4.trans h2.symm
    · exact (hinj hne v₂ hv₂ (h1 ▸ hm)).trans h2.symm
    · have hv := hinj hm.1 v₁ hv₁ ⟨h3 ▸ hne, by rw [h3] at hm; exact hm.2.symm⟩
      exact h4.trans hv.symm
    · exact h.inj r' hr' v₁ v₂ hv₁ hv₂ hne hm
  · rcases hcases r' v' with ⟨_, h2, _⟩ | ⟨_, he⟩
    · simp only [TFV, MAXV] at hv hv'
      omega
    · rw [he]
      exact h.high r' hr' v' hv'

def Ghost.setOwn (g : Ghost) (x : Nat) (o : Owner) : Ghost :=
  { g with own := Function.update g.own x o }

@[simp] theorem Ghost.setOwn_pt (g : Ghost) : (g.setOwn x o).pt = g.pt := rfl

@[simp] theorem Ghost.setOwn_free (g : Ghost) : (g.setOwn x o).free = g.free := rfl

@[simp] theorem Ghost.setOwn_own_self (g : Ghost) : (g.setOwn x o).own x = o :=
  Function.update_self _ _ _

theorem Ghost.setOwn_own (g : Ghost) (h : y ≠ x) : (g.setOwn x o).own y = g.own y :=
  Function.update_of_ne h _ _

theorem Ghost.setOwn_live (g : Ghost) (hr : g.Live r) (hx : ∀ l p, g.own x ≠ .table r l p) :
    (g.setOwn x o).Live r := by
  rw [Ghost.Live, g.setOwn_own]
  · exact hr
  · rintro rfl
    exact hx _ _ hr

/-- Mapping a page that nothing else uses yet. -/
theorem SpaceInv.mapFresh (h : SpaceInv s g S) (hr : r ∈ S) (hv : v < TFV) (h0 : g.pt r v = 0)
    (hx : g.own x = .held k) (hlt : x < 2 ^ 44) (hc : s.count x = 1) (hf : UserFlags f) :
    SpaceInv s ((g.setOwn x .user).setPte r v (mkPte x f)) S := by
  have hno := h.no_mapper (x := x) (by simp [hx])
  have hnomap {r' v' : Nat} (hr' : r' ∈ S) (hv' : v' < TFV) : ¬ Maps (g.pt r' v') x := by
    intro hm
    have hmem := mem_mappers.2 ⟨hr', hv', hm⟩
    rw [hno] at hmem
    simp at hmem
  have hppn : ppn (mkPte x f) = x := ppn_mkPte hlt hf.lt
  refine h.setPte hv (fun r' hr' => ?_) rfl ?_
    (fun _ => ?_) (fun y hy => ?_) ?_ ?_ ?_
  · exact g.setOwn_live (h.live r' hr') (by simp [hx])
  · intro r' hr' v' hv' _ hne
    have ht := h.target r' hr' v' hv' hne
    by_cases hy : ppn (g.pt r' v') = x
    · exact (hnomap hr' hv' ⟨hne, hy⟩).elim
    · exact (g.setOwn_own hy).trans ht
  · rw [hppn]
    exact ⟨hf.leaf hlt, g.setOwn_own_self⟩
  · by_cases hyx : y = x
    · subst hyx
      rw [mappers_setPte_of_maps hr hv ((hf.maps hlt).2 rfl), hno, hc]
      rfl
    · have hu : g.own y = .user := by rwa [Ghost.setPte_own, g.setOwn_own hyx] at hy
      rw [mappers_setPte_of_not_maps fun hm => hyx ((hf.maps hlt).1 hm).symm, h.count y hu,
        Finset.erase_eq_of_notMem]
      simp [mem_mappers, h0, Maps]
  · intro _ r' hr' v' hv' hm
    exact (hnomap hr' hv' (hppn ▸ hm)).elim
  · intro _ r' hr' v' hv' hw he
    refine (hnomap hr' hv' ⟨?_, ?_⟩).elim
    · intro h0
      simp [h0] at hw
    · rw [← he, hppn]
  · intro _ v' hv' hm
    exact (hnomap hr hv' (hppn ▸ hm)).elim

theorem SpaceInv.maps_zero (x : Nat) : ¬ Maps 0 x := fun h => h.1 rfl

/-- Giving up one mapping of a page; `o` is what the page becomes. -/
theorem SpaceInv.unmap {s s' : Mem} (h : SpaceInv s g S) (hr : r ∈ S) (hv : v < TFV)
    (hne : g.pt r v ≠ 0) (hx : ppn (g.pt r v) = x)
    (ho : o = .user ∨ o = .free ∧ s.count x = 1)
    (hc : ∀ y, s'.count y = if y = x then s.count x - 1 else s.count y) :
    SpaceInv s' ((g.setOwn x o).setPte r v 0) S := by
  have hu : g.own x = .user := hx ▸ h.target r hr v hv hne
  have hmem : (r, v) ∈ mappers g S x := mem_mappers.2 ⟨hr, hv, hne, hx⟩
  have hcount := h.count x hu
  have hcard := Finset.card_erase_of_mem hmem
  have hpos := Finset.card_pos.2 ⟨_, hmem⟩
  refine h.setPte hv (fun r' hr' => ?_) rfl ?_
    (fun h0 => (h0 rfl).elim) (fun y hy => ?_) (fun hw => by simp at hw) (fun h0 => (h0 rfl).elim)
    fun h0 => (h0 rfl).elim
  · exact g.setOwn_live (h.live r' hr') (by simp [hu])
  · intro r' hr' v' hv' hne' hm
    have ht := h.target r' hr' v' hv' hm
    by_cases hy : ppn (g.pt r' v') = x
    · -- a second mapping keeps the count above one, so the page stays a user page
      have hmem' : (r', v') ∈ (mappers g S x).erase (r, v) := by
        refine Finset.mem_erase.2 ⟨?_, mem_mappers.2 ⟨hr', hv', hm, hy⟩⟩
        intro he
        rw [Prod.mk.injEq] at he
        exact hne' he
      have hpos' := Finset.card_pos.2 ⟨_, hmem'⟩
      rcases ho with rfl | ⟨_, hone⟩
      · rw [hy]
        exact g.setOwn_own_self
      · omega
    · exact (g.setOwn_own hy).trans ht
  · rw [mappers_setPte_of_not_maps (SpaceInv.maps_zero y), hc]
    by_cases hyx : y = x
    · subst hyx
      rw [if_pos rfl]
      omega
    · have hu' : g.own y = .user := by rwa [Ghost.setPte_own, g.setOwn_own hyx] at hy
      rw [if_neg hyx, h.count y hu', Finset.erase_eq_of_notMem]
      rw [mem_mappers]
      rintro ⟨_, _, hm⟩
      exact hyx (hm.2.symm.trans hx)

/-- A second mapping, without write permission, of a page that no one may write. -/
theorem SpaceInv.share {s t : Mem} (h : SpaceInv s g S) (hr : r ∈ S) (hv : v < TFV)
    (hne : g.pt r v ≠ 0) (hx : ppn (g.pt r v) = x) (hw : (g.pt r v).getLsbD 2 = false)
    (hr' : r' ∈ S) (hv' : v' < TFV) (h0 : g.pt r' v' = 0)
    (hno : ∀ w, w < TFV → ¬ Maps (g.pt r' w) x) (hlt : x < 2 ^ 44) (hf : UserFlags f)
    (hfw : f.getLsbD 2 = false)
    (hc : ∀ y, t.count y = if y = x then s.count x + 1 else s.count y) :
    SpaceInv t (g.setPte r' v' (mkPte x f)) S := by
  have hu : g.own x = .user := hx ▸ h.target r hr v hv hne
  have hppn : ppn (mkPte x f) = x := ppn_mkPte hlt hf.lt
  have hnmem : (r', v') ∉ mappers g S x := by
    rw [mem_mappers]
    rintro ⟨_, _, hm⟩
    exact hm.1 h0
  refine h.setPte (k := g.setPte r' v' (mkPte x f)) hv' (fun r hr => h.live r hr) rfl
    (fun r₁ hr₁ v₁ hv₁ _ hm => h.target r₁ hr₁ v₁ hv₁ hm) (fun _ => ?_) (fun y hy => ?_) ?_ ?_ ?_
  · rw [hppn]
    exact ⟨hf.leaf hlt, hu⟩
  · rw [hc]
    by_cases hyx : y = x
    · subst hyx
      rw [if_pos rfl, mappers_setPte_of_maps hr' hv' ((hf.maps hlt).2 rfl),
        Finset.card_insert_of_notMem hnmem, h.count y hu]
      rfl
    · rw [if_neg hyx, h.count y hy, mappers_setPte_of_not_maps, Finset.erase_eq_of_notMem]
      · rw [mem_mappers]
        rintro ⟨_, _, hm⟩
        exact hm.1 h0
      · exact fun hm => hyx ((hf.maps hlt).1 hm).symm
  · intro hw'
    rw [getLsbD_mkPte _ _ (by decide), hfw] at hw'
    cases hw'
  · intro _ r₁ hr₁ v₁ hv₁ hw₁ he
    obtain ⟨rfl, rfl⟩ := h.excl r₁ hr₁ v₁ hv₁ hw₁ r hr v hv ⟨hne, by rw [hx, ← he, hppn]⟩
    rw [hw] at hw₁
    cases hw₁
  · intro _ w hw hm
    exact (hno w hw (hppn ▸ hm)).elim

/-- Changing the flags of a mapping without making the page newly writable. -/
theorem SpaceInv.reflag {s : Mem} (h : SpaceInv s g S) (hr : r ∈ S) (hv : v < TFV)
    (hne : g.pt r v ≠ 0) (hx : ppn (g.pt r v) = x) (hlt : x < 2 ^ 44) (hf : UserFlags f)
    (hw : f.getLsbD 2 = true → (g.pt r v).getLsbD 2 = true) :
    SpaceInv s (g.setPte r v (mkPte x f)) S := by
  have hu : g.own x = .user := hx ▸ h.target r hr v hv hne
  have hppn : ppn (mkPte x f) = x := ppn_mkPte hlt hf.lt
  refine h.setPte (k := g.setPte r v (mkPte x f)) hv (fun r hr => h.live r hr) rfl
    (fun r₁ hr₁ v₁ hv₁ _ hm => h.target r₁ hr₁ v₁ hv₁ hm) (fun _ => ?_) (fun y hy => ?_) ?_ ?_ ?_
  · rw [hppn]
    exact ⟨hf.leaf hlt, hu⟩
  · rw [h.count y hy]
    refine congrArg _ (congrArg _ (mappers_congr fun r' _ v' _ => ?_)).symm
    rw [Ghost.setPte_pt]
    by_cases hc : r' = r ∧ v' = v
    · rw [if_pos hc, hf.maps hlt, hc.1, hc.2, Maps, hx]
      exact (and_iff_right hne).symm
    · rw [if_neg hc]
  · intro hw' r' hr' v' hv' hm
    rw [getLsbD_mkPte _ _ (by decide)] at hw'
    rw [hppn, ← hx] at hm
    exact h.excl r hr v hv (hw hw') r' hr' v' hv' hm
  · intro _ r' hr' v' hv' hw' he
    have hm : Maps (g.pt r v) (ppn (g.pt r' v')) := ⟨hne, by rw [hx, ← he, hppn]⟩
    obtain ⟨hre, hve⟩ := h.excl r' hr' v' hv' hw' r hr v hv hm
    exact ⟨hre.symm, hve.symm⟩
  · intro _ v' hv' hm
    rw [hppn, ← hx] at hm
    exact h.inj r hr v v' hv hv' hne hm

theorem mappers_insert_empty (h0 : ∀ v, v < TFV → g.pt r v = 0) :
    mappers g (insert r S) x = mappers g S x := by
  ext ⟨r', v⟩
  simp only [mem_mappers, Finset.mem_insert]
  constructor
  · rintro ⟨rfl | hr', hv, hm⟩
    · exact (hm.1 (h0 v hv)).elim
    · exact ⟨hr', hv, hm⟩
  · rintro ⟨hr', hv, hm⟩
    exact ⟨.inr hr', hv, hm⟩

/-- A new, empty address space. -/
theorem SpaceInv.insert {s : Mem} (h : SpaceInv s g S) (hr : g.Live r) (h0 : ∀ v, g.pt r v = 0) :
    SpaceInv s g (insert r S) := by
  have hw0 (v : Nat) : ¬ (g.pt r v).getLsbD 2 = true := by simp [h0]
  refine ⟨fun r' hr' => ?_, fun r' hr' v hv hne => ?_, fun r' hr' v hv hne => ?_, fun x hx => ?_,
    fun r₁ hr₁ v₁ hv₁ hw r₂ hr₂ v₂ hv₂ hm => ?_, fun r' hr' v₁ v₂ hv₁ hv₂ hne hm => ?_,
    fun r' hr' v hv => ?_⟩
  · rcases Finset.mem_insert.1 hr' with rfl | hr'
    · exact hr
    · exact h.live r' hr'
  · rcases Finset.mem_insert.1 hr' with rfl | hr'
    · exact (hne (h0 v)).elim
    · exact h.leaf r' hr' v hv hne
  · rcases Finset.mem_insert.1 hr' with rfl | hr'
    · exact (hne (h0 v)).elim
    · exact h.target r' hr' v hv hne
  · rw [mappers_insert_empty fun v _ => h0 v]
    exact h.count x hx
  · rcases Finset.mem_insert.1 hr₁ with rfl | hr₁
    · exact (hw0 v₁ hw).elim
    · rcases Finset.mem_insert.1 hr₂ with rfl | hr₂
      · exact (hm.1 (h0 v₂)).elim
      · exact h.excl r₁ hr₁ v₁ hv₁ hw r₂ hr₂ v₂ hv₂ hm
  · rcases Finset.mem_insert.1 hr' with rfl | hr'
    · exact (hne (h0 v₁)).elim
    · exact h.inj r' hr' v₁ v₂ hv₁ hv₂ hne hm
  · rcases Finset.mem_insert.1 hr' with rfl | hr'
    · exact h0 v
    · exact h.high r' hr' v hv

/-- An address space from which every user page has been removed may be forgotten. -/
theorem SpaceInv.erase {s : Mem} (h : SpaceInv s g S) (h0 : ∀ v, v < TFV → g.pt r v = 0) :
    SpaceInv s g (S.erase r) := by
  have hmem {r' : Nat} (hr' : r' ∈ S.erase r) : r' ∈ S := Finset.mem_of_mem_erase hr'
  refine ⟨fun r' hr' => h.live r' (hmem hr'), fun r' hr' => h.leaf r' (hmem hr'),
    fun r' hr' => h.target r' (hmem hr'), fun x hx => ?_,
    fun r₁ hr₁ v₁ hv₁ hw r₂ hr₂ => h.excl r₁ (hmem hr₁) v₁ hv₁ hw r₂ (hmem hr₂),
    fun r' hr' => h.inj r' (hmem hr'), fun r' hr' => h.high r' (hmem hr')⟩
  rw [h.count x hx]
  by_cases hr : r ∈ S
  · rw [← mappers_insert_empty (S := S.erase r) h0, Finset.insert_erase hr]
  · rw [Finset.erase_eq_of_notMem hr]

end PbsCow

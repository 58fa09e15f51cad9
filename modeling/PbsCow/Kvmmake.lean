import PbsCow.Boot
import PbsCow.Fork
import Mathlib.Order.Interval.Finset.Nat

namespace PbsCow
set_option autoImplicit true

/-- What the pages that the kernel takes while it boots are for. -/
def bootOwners (k : Nat) : List Owner :=
  [.table k 2 0, .table k 1 0, .table k 1 2, .table k 1 255, .table k 0 96, .table k 0 97,
    .table k 0 128, .table k 0 131071, .held (.ring 0), .held (.ring 1), .held (.ring 2)] ++
  (List.range 64).map (fun i => .table k 0 (1024 + i)) ++
  (List.range NPROC).map fun i => .held (.kstack i)

theorem bootOwners_length (k : Nat) : (bootOwners k).length = 139 := by
  simp [bootOwners, NPROC]

/-- Every page is free, or is one of the pages with an owner in `O`. -/
theorem PageRep.managed_le (h : PageRep L s g) (O : List Owner)
    (hO : ∀ x, g.own x = .outside ∨ g.own x = .free ∨ g.own x ∈ O)
    (hinj : ∀ x y, g.own x ∈ O → g.own x = g.own y → x = y) :
    1024 ≤ g.free.length + O.length := by
  have hcard : 1024 ≤ (Finset.Ico L.firstPage (PHYSTOP / PGSIZE)).card := by
    have hk : L.kend + PGSIZE ≤ 2 ^ 64 :=
      Nat.le_trans (Nat.add_le_add_right L.kend_le PGSIZE) (by decide)
    have hroom := L.room
    rw [Nat.card_Ico, Layout.firstPage, PGROUNDUP_eq hk, page_div, PHYSTOP_eq, page_div]
    rw [PHYSTOP_eq] at hroom
    simp only [PGSIZE] at *
    omega
  have hsub : Finset.Ico L.firstPage (PHYSTOP / PGSIZE) ⊆
      g.free.toFinset ∪ (Finset.Ico L.firstPage (PHYSTOP / PGSIZE)).filter (g.own · ∈ O) := by
    intro x hx
    have hm : L.Managed x := Finset.mem_Ico.1 hx
    rw [Finset.mem_union, List.mem_toFinset, h.mem_free, Finset.mem_filter]
    rcases hO x with ho | ho | ho
    · exact ((h.managed x).2 hm ho).elim
    · exact .inl ho
    · exact .inr ⟨hx, ho⟩
  have himage : ((Finset.Ico L.firstPage (PHYSTOP / PGSIZE)).filter (g.own · ∈ O)).card ≤
      O.toFinset.card := by
    refine Finset.card_le_card_of_injOn g.own (fun x hx => ?_) fun x hx y _ he => ?_
    · exact List.mem_toFinset.2 (Finset.mem_filter.1 hx).2
    · exact hinj x y (Finset.mem_filter.1 hx).2 he
  calc 1024 ≤ _ := hcard
    _ ≤ _ := Finset.card_le_card hsub
    _ ≤ _ := Finset.card_union_le _ _
    _ ≤ _ := Nat.add_le_add (List.toFinset_card_le _) (himage.trans (List.toFinset_card_le _))

/-- Memory while the kernel boots: there is one page table, and no process. -/
structure Booting (L : Layout) (k : Nat) (s : Mem) (g : Ghost) : Prop where
  good : Good L s g ∅
  live : g.Live k
  own : ∀ x, g.own x = .outside ∨ g.own x = .free ∨ g.own x ∈ bootOwners k
  held : ∀ {x y h}, g.own x = .held h → g.own y = .held h → x = y

theorem Booting.free_length (h : Booting L k s g) : 885 ≤ g.free.length := by
  have hle := h.good.rep.page.managed_le (bootOwners k) h.own fun x y hx he => ?_
  · rw [bootOwners_length] at hle
    omega
  · simp only [bootOwners, List.mem_append, List.mem_cons, List.mem_map, List.not_mem_nil,
      or_false] at hx
    have htab {l p : Nat} (ht : g.own x = .table k l p) : x = y :=
      h.good.rep.table.unique ht (he ▸ ht)
    have hheld {o : Holder} (ho : g.own x = .held o) : x = y := h.held ho (he ▸ ho)
    rcases hx with ((ht | ht | ht | ht | ht | ht | ht | ht | ho | ho | ho) | ⟨i, _, ht⟩) | ⟨i, _, ho⟩
    all_goals first | exact htab ht | exact hheld ho | exact htab ht.symm | exact hheld ho.symm

theorem SpaceInv.empty (h : ∀ x, g.own x ≠ .user) : SpaceInv s g ∅ := by
  refine ⟨?_, ?_, ?_, fun x hx => (h x hx).elim, ?_, ?_, ?_⟩ <;> intro r hr <;> simp at hr

theorem user_notMem_bootOwners : Owner.user ∉ bootOwners k := by simp [bootOwners]

theorem bootOwners_kstack (hi : i < NPROC) : .held (.kstack i) ∈ bootOwners k := by
  simpa [bootOwners] using hi

/-- The pages at which the kernel's page table maps something. -/
def KernelV (v : Nat) : Prop :=
  v / 512 = 96 ∨ v / 512 = 97 ∨ v / 512 = 128 ∨ v / 512 = 131071 ∨ 1024 ≤ v / 512 ∧ v / 512 < 1088

theorem bootOwners_table (hv : KernelV v) (hl : l < 2) :
    .table k l (v / 512 ^ (l + 1)) ∈ bootOwners k := by
  have hcases : l = 0 ∨ l = 1 := by omega
  rcases hcases with rfl | rfl
  · simp only [Nat.zero_add, Nat.pow_one]
    rcases hv with hv | hv | hv | hv | hv
    · simp [bootOwners, hv]
    · simp [bootOwners, hv]
    · simp [bootOwners, hv]
    · simp [bootOwners, hv]
    · rw [bootOwners, List.mem_append, List.mem_append]
      refine .inl (.inr (List.mem_map.2 ⟨v / 512 - 1024, List.mem_range.2 (by omega), ?_⟩))
      rw [Nat.add_sub_cancel' hv.1]
  · have h2 : v / 512 ^ (1 + 1) = v / 512 / 512 := (Nat.div_div_eq_div_mul v 512 512).symm
    have h3 : v / 512 / 512 = 0 ∨ v / 512 / 512 = 2 ∨ v / 512 / 512 = 255 := by
      simp only [KernelV] at hv
      omega
    rw [h2]
    rcases h3 with h3 | h3 | h3 <;> simp [bootOwners, h3]

/-- Taking a page for a purpose that no other page serves. -/
theorem Booting.alloc (h : Booting L k s g) (hf : g.free = x :: f) (ho : .held o ∈ bootOwners k)
    (hnone : ∀ y, g.own y ≠ .held o) :
    Booting L k (s.alloc x) ((g.take x f).setOwn x (.held o)) := by
  have hfree := h.good.rep.free_of_cons hf
  have hown {y : Nat} (hy : y ≠ x) : ((g.take x f).setOwn x (.held o)).own y = g.own y := by
    rw [Ghost.setOwn_own _ hy, Ghost.take_own _ hy]
  refine ⟨h.good.alloc hf, ?_, fun y => ?_, fun {y z o'} hy hz => ?_⟩
  · have hk : k ≠ x := by
      rintro rfl
      exact absurd h.live (by rw [Ghost.Live, hfree]; simp)
    exact (hown hk).trans h.live
  · by_cases hy : y = x
    · rw [hy, Ghost.setOwn_own_self]
      exact .inr (.inr ho)
    · rw [hown hy]
      exact h.own y
  · by_cases hyx : y = x
    · by_cases hzx : z = x
      · rw [hyx, hzx]
      · rw [hyx, Ghost.setOwn_own_self, Owner.held.injEq] at hy
        rw [hown hzx, ← hy] at hz
        exact (hnone z hz).elim
    · by_cases hzx : z = x
      · rw [hzx, Ghost.setOwn_own_self, Owner.held.injEq] at hz
        rw [hown hyx, ← hz] at hy
        exact (hnone y hy).elim
      · rw [hown hyx] at hy
        rw [hown hzx] at hz
        exact h.held hy hz

theorem Booting.grow (h : Booting L k s g) (hrep : Rep L s' g') (hg : Grow k V m s s' g g')
    (hV : ∀ v, V v → KernelV v) : Booting L k s' g' := by
  have hown (x : Nat) : g'.own x = .outside ∨ g'.own x = .free ∨ g'.own x ∈ bootOwners k := by
    by_cases hf : g.own x = .free
    · rcases hg.new x hf with ho | ⟨v, l, hv, hl, ho⟩
      · exact .inr (.inl ho)
      · rw [ho]
        exact .inr (.inr (bootOwners_table (hV v hv) hl))
    · rw [hg.keep x hf]
      exact h.own x
  have hfr := hg.frame h.good.space
  refine ⟨⟨hrep, .empty fun x hx => ?_⟩, hg.live h.live, hown, fun hx hy => ?_⟩
  · have hu := hown x
    rw [hx] at hu
    simp [user_notMem_bootOwners] at hu
  · exact h.held (hfr.holder _ _ hx) (hfr.holder _ _ hy)

/-- `n` pages have been mapped from `v` on in the kernel's page table. -/
structure KvmPost (L : Layout) (k v n x : Nat) (perm : Word) (g : Ghost) (s' : Mem) (g' : Ghost) :
    Prop where
  booting : Booting L k s' g'
  pt : g'.pt k = mapRange (g.pt k) v n x perm
  held : ∀ y o, g'.own y = .held o ↔ g.own y = .held o

/-- Memory never runs out while the kernel's page table is filled. -/
theorem Booting.kvmmap (h : Booting L k s g) (hva : va = v * PGSIZE) (hpa : pa = x * PGSIZE)
    (hsz : sz = n * PGSIZE) (hn : 0 < n) (hV : ∀ w, v ≤ w → w < v + n → KernelV w)
    (hno : ∀ w, v ≤ w → w < v + n → g.pt k w = 0) :
    Wp (kvmmap (k * PGSIZE) va pa sz perm) NoError
      (fun _ s' => ∃ g', KvmPost L k v n x perm g s' g') s := by
  rw [PbsCow.kvmmap, hva, hsz, hpa, mappages_aligned _ _ _ _ _ hn]
  have hlast := hV (v + (n - 1)) (by omega) (by omega)
  have hlt : v + (n - 1) < 67108864 := by
    simp only [KernelV] at hlast
    omega
  refine .bind (h.good.rep.mappagesLoop_spec h.live hlt fun w hw hw' => ?_) ?_
  · rw [hno w hw (by omega)]
    rfl
  · rintro ret s' ⟨g', m, hrep, hg, hp, hret⟩
    have hb := h.grow hrep hg fun w hw => hV w hw.1 (by omega)
    have hfr := hg.frame h.good.space
    rcases hret with ⟨rfl, rfl⟩ | ⟨_, _, hempty⟩
    · refine .ite_neg (by simp) (wp_pure.2 ⟨g', hb, ?_, fun y o => ⟨hfr.holder y o, fun ho => ?_⟩⟩)
      · rw [hp, Nat.sub_add_cancel hn]
      · rw [hg.keep y (by rw [ho]; simp), ho]
    · have hlen := hb.free_length
      rw [hempty] at hlen
      simp at hlen

theorem KSTACK_eq (hi : i < NPROC) : KSTACK i = kstackV i * PGSIZE ∧ kstackV i = 67108861 - 2 * i := by
  have hN : NPROC = 64 := rfl
  have hT : TRAMPOLINE = 67108863 * PGSIZE := rfl
  simp only [kstackV, KSTACK, hT, PGSIZE] at *
  omega

theorem kstackV_inj (hi : i < NPROC) (hj : j < NPROC) (h : kstackV i = kstackV j) : i = j := by
  have hN : NPROC = 64 := rfl
  rw [(KSTACK_eq hi).2, (KSTACK_eq hj).2] at h
  omega

/-- The kernel stacks of the slots in `l` have been allocated and mapped. -/
structure Stacks (k : Nat) (l : List Nat) (g g' : Ghost) : Prop where
  pt : ∀ w, (∀ i ∈ l, w ≠ kstackV i) → g'.pt k w = g.pt k w
  stack : ∀ i ∈ l, ∃ x, g'.pt k (kstackV i) = mkPte x (PTE_R ||| PTE_W ||| PTE_V) ∧
    g'.own x = .held (.kstack i)
  held : ∀ y o, g.own y = .held o → g'.own y = .held o
  holder : ∀ y o, g'.own y = .held o → g.own y = .held o ∨ ∃ i ∈ l, o = .kstack i

theorem Booting.procMapstacks (h : Booting L k s g) (hl : ∀ i ∈ l, i < NPROC) (hnd : l.Nodup)
    (hnone : ∀ i ∈ l, ∀ y, g.own y ≠ .held (.kstack i)) (hno : ∀ i ∈ l, g.pt k (kstackV i) = 0) :
    Wp (procMapstacks (k * PGSIZE) l) NoError
      (fun _ s' => ∃ g', Booting L k s' g' ∧ Stacks k l g g') s := by
  induction l generalizing s g with
  | nil =>
    exact wp_pure.2 ⟨g, h, fun _ _ => rfl, fun i hi => by simp at hi, fun _ _ h => h,
      fun _ _ h => .inl h⟩
  | cons i l ih =>
    have hi := hl i (by simp)
    obtain ⟨hil, hnd'⟩ := List.nodup_cons.1 hnd
    obtain ⟨hK, hV⟩ := KSTACK_eq hi
    have hlen := h.free_length
    cases hf : g.free with
    | nil =>
      rw [hf] at hlen
      simp at hlen
    | cons x f =>
      have hfree := h.good.rep.free_of_cons hf
      have hm := (h.good.rep.page.managed x).1 (by simp [hfree])
      have hb := h.alloc hf (bootOwners_kstack hi) (hnone i (by simp))
      have hown {y : Nat} (hy : y ≠ x) :
          ((g.take x f).setOwn x (.held (.kstack i))).own y = g.own y := by
        rw [Ghost.setOwn_own _ hy, Ghost.take_own _ hy]
      rw [PbsCow.procMapstacks]
      refine .bind_ok (kalloc_cons (hf ▸ h.good.rep.page.freeRep))
        (.ite_neg (Nat.ne_of_gt hm.pos) ?_)
      have hN : NPROC = 64 := rfl
      refine .bind (hb.kvmmap (n := 1) hK rfl rfl (by decide) (fun w hw hw' => ?_)
        fun w hw hw' => ?_) ?_
      · simp only [KernelV]
        omega
      · obtain rfl : w = kstackV i := by omega
        exact hno i (by simp)
      rintro _ s₁ ⟨g₁, hb₁, hp₁, hh₁⟩
      have hpt (j : Nat) (hj : j ∈ l) : g₁.pt k (kstackV j) = g.pt k (kstackV j) := by
        rw [hp₁, mapRange_one, Function.update_of_ne]
        · rfl
        · intro he
          exact hil (kstackV_inj (hl j (by simp [hj])) hi he ▸ hj)
      refine (ih hb₁ (fun j hj => hl j (by simp [hj])) hnd' (fun j hj y hy => ?_)
        fun j hj => (hpt j hj).trans (hno j (by simp [hj]))).mono ?_
      · have hy' := (hh₁ y _).1 hy
        by_cases hyx : y = x
        · rw [hyx, Ghost.setOwn_own_self, Owner.held.injEq, Holder.kstack.injEq] at hy'
          exact hil (hy' ▸ hj)
        · exact hnone j (by simp [hj]) y (hown hyx ▸ hy')
      · rintro _ s' ⟨g', hb', hs'⟩
        have hx₁ : g₁.own x = .held (.kstack i) := (hh₁ x _).2 (Ghost.setOwn_own_self _)
        refine ⟨g', hb', fun w hw => ?_, fun j hj => ?_, fun y o hy => ?_, fun y o hy => ?_⟩
        · rw [hs'.pt w fun j hj => hw j (by simp [hj]), hp₁, mapRange_one,
            Function.update_of_ne (hw i (by simp))]
          rfl
        · rcases List.mem_cons.1 hj with rfl | hj
          · refine ⟨x, ?_, hs'.held x _ hx₁⟩
            rw [hs'.pt _ fun j' hj' he => hil (kstackV_inj hi (hl j' (by simp [hj'])) he ▸ hj'), hp₁,
              mapRange_one, Function.update_self]
          · exact hs'.stack j hj
        · have hyx : y ≠ x := by
            rintro rfl
            rw [hfree] at hy
            cases hy
          exact hs'.held y o ((hh₁ y o).2 ((hown hyx).trans hy))
        · rcases hs'.holder y o hy with ho | ⟨j, hj, rfl⟩
          · have ho' := (hh₁ y o).1 ho
            by_cases hyx : y = x
            · rw [hyx, Ghost.setOwn_own_self, Owner.held.injEq] at ho'
              exact .inr ⟨i, by simp, ho'.symm⟩
            · exact .inl (hown hyx ▸ ho')
          · exact .inr ⟨j, by simp [hj], rfl⟩

/-- After `kinit` there is nothing but free pages. -/
theorem kinit_good (hs : s.freelist = 0) :
    Wp (kinit L) NoError (fun _ s' => ∃ g, Good L s' g ∅ ∧
      ∀ x, g.own x = .outside ∨ g.own x = .free) s := by
  refine (kinit_spec (L := L) hs).mono ?_
  rintro _ s' ⟨free, hf, _, hmem, _⟩
  have hown (x : Nat) : (if x ∈ free then Owner.free else .outside) = .outside ∨
      (if x ∈ free then Owner.free else .outside) = .free := by
    split <;> simp
  refine ⟨⟨fun x => if x ∈ free then .free else .outside, free, fun _ _ => 0⟩, ⟨⟨⟨hf, fun x => ?_,
    fun x => ?_, fun x r l q hx => ?_, fun x o hx => ?_, fun x hx => ?_⟩, ?_⟩, .empty fun x hx => ?_⟩,
    hown⟩
  · dsimp only
    split <;> simp_all
  · rw [← hmem x]
    dsimp only
    split <;> simp_all
  · rcases hown x with ho | ho <;> simp [ho] at hx
  · rcases hown x with ho | ho <;> simp [ho] at hx
  · rcases hown x with ho | ho <;> simp [ho] at hx
  · have hno {x r l q : Nat} : (if x ∈ free then Owner.free else .outside) ≠ .table r l q := by
      rcases hown x with ho | ho <;> simp [ho]
    exact ⟨fun hx => (hno hx).elim, fun hx => (hno hx).elim, fun hx => (hno hx).elim,
      fun hx => (hno hx).elim, fun hx => (hno hx).elim, fun hx => (hno hx).elim, fun _ => rfl⟩
  · rcases hown x with ho | ho <;> simp [ho] at hx

theorem mapRange_of_not (h : w < v ∨ v + m ≤ w) : mapRange f v m x perm w = f w :=
  if_neg (by omega)

/-- Apart from the trampoline, pages are mapped to themselves. -/
def Identity (L : Layout) (f : Nat → Word) : Prop :=
  ∀ v, f v ≠ 0 → ppn (f v) = v ∨ v = TFV + 1 ∧ ppn (f v) = L.trampoline / PGSIZE

theorem Identity.mapRange (h : Identity L f) (hv : v + m ≤ MAXV)
    (hp : (perm ||| PTE_V).toNat < 1024) : Identity L (mapRange f v m v perm) := by
  intro w hw
  by_cases hr : v ≤ w ∧ w < v + m
  · rw [PbsCow.mapRange, if_pos hr, ppn_mkPte (by simp only [MAXV] at hv; omega) hp]
    omega
  · rw [mapRange_of_not (by omega)] at hw ⊢
    exact h w hw

theorem Identity.trampoline (h : Identity L f) (hp : (perm ||| PTE_V).toNat < 1024) :
    Identity L (PbsCow.mapRange f (TFV + 1) 1 (L.trampoline / PGSIZE) perm) := by
  intro w hw
  rw [mapRange_one] at hw ⊢
  by_cases hr : w = TFV + 1
  · rw [hr, Function.update_self, ppn_mkPte L.trampoline_lt44 hp]
    exact .inr ⟨rfl, rfl⟩
  · rw [Function.update_of_ne hr] at hw ⊢
    exact h w hw

theorem Layout.etext_page (L : Layout) : ∃ e, L.trampoline = (e - 1) * PGSIZE ∧ L.etext = e * PGSIZE ∧
    524288 < e ∧ e < 557056 := by
  have h1 := L.trampoline_aligned
  have h2 := L.kernbase_le
  have h3 := L.etext_le
  have h4 := L.room
  rw [PHYSTOP_eq] at h4
  refine ⟨L.trampoline / PGSIZE + 1, ?_⟩
  simp only [Layout.etext, PGSIZE, KERNBASE] at *
  omega

/-- A kernel page table with the identity map below page `b`, and no page held yet. -/
structure Mapped (L : Layout) (k b : Nat) (s : Mem) (g : Ghost) : Prop where
  booting : Booting L k s g
  identity : Identity L (g.pt k)
  zero : ∀ v, b ≤ v → g.pt k v = 0
  held : ∀ y o, g.own y ≠ .held o

theorem KvmPost.mapped (h : KvmPost L k v n v perm g s' g') (hm : Mapped L k b s g)
    (hp : (perm ||| PTE_V).toNat < 1024) (hv : v + n ≤ c) (hb : b ≤ c) (hb' : c ≤ MAXV) :
    Mapped L k c s' g' := by
  refine ⟨h.booting, ?_, fun w hw => ?_, fun y o hy => hm.held y o ((h.held y o).1 hy)⟩
  · rw [h.pt]
    exact hm.identity.mapRange (by omega) hp
  · rw [h.pt, mapRange_of_not (by omega), hm.zero w (by omega)]

/-- The page table is empty at first. -/
theorem Mapped.start (h : Good L s g ∅) (hown : ∀ x, g.own x = .outside ∨ g.own x = .free)
    (hf : g.free = k :: f) :
    Mapped L k 0 ((s.alloc k).setPage k fun _ => 0) (g.addRoot k f) := by
  have hother {y : Nat} (hy : y ≠ k) := g.addRoot_own (f := f) hy
  have hz (v : Nat) : (g.addRoot k f).pt k v = 0 :=
    h.rep.table.pt_of_free (h.rep.free_of_cons hf) v
  have hheld (y : Nat) (o : Holder) : (g.addRoot k f).own y ≠ .held o := by
    by_cases hy : y = k
    · rw [hy, g.addRoot_own_self]
      simp
    · rw [hother hy]
      rcases hown y with ho | ho <;> simp [ho]
  refine ⟨⟨h.addRoot hf, g.addRoot_own_self, fun y => ?_, fun hy _ => (hheld _ _ hy).elim⟩,
    fun v hv => (hv (hz v)).elim, fun v _ => hz v, hheld⟩
  by_cases hy : y = k
  · rw [hy, g.addRoot_own_self]
    exact .inr (.inr (by simp [bootOwners]))
  · rw [hother hy]
    exact (hown y).imp_right .inl

/-- The device registers are mapped. -/
theorem Mapped.devices (h : Mapped L k 0 s g)
    (hrest : ∀ s' g', Mapped L k 65538 s' g' → Wp rest NoError Q s') :
    Wp (do
      kvmmap (k * PGSIZE) UART0 UART0 PGSIZE (PTE_R ||| PTE_W)
      kvmmap (k * PGSIZE) VIRTIO0 VIRTIO0 PGSIZE (PTE_R ||| PTE_W)
      kvmmap (k * PGSIZE) PLIC PLIC 0x400000 (PTE_R ||| PTE_W)
      rest) NoError Q s := by
  have hflags : (PTE_R ||| PTE_W ||| PTE_V).toNat < 1024 := by decide
  refine .bind (h.booting.kvmmap (v := 65536) (x := 65536) (n := 1) rfl rfl rfl (by decide)
    (fun w _ _ => by simp only [KernelV]; omega) fun w _ _ => h.zero w (by omega)) ?_
  rintro _ s₁ ⟨g₁, h₁⟩
  have hm₁ := h₁.mapped h hflags (Nat.le_refl 65537) (Nat.zero_le _) (by decide)
  refine .bind (hm₁.booting.kvmmap (v := 65537) (x := 65537) (n := 1) rfl rfl rfl (by decide)
    (fun w _ _ => by simp only [KernelV]; omega) fun w _ _ => hm₁.zero w (by omega)) ?_
  rintro _ s₂ ⟨g₂, h₂⟩
  have hm₂ := h₂.mapped hm₁ hflags (Nat.le_refl 65538) (by omega) (by decide)
  have hplic : (0x400000 : Nat) = 1024 * PGSIZE := by decide
  refine .bind (hm₂.booting.kvmmap (v := 49152) (x := 49152) rfl rfl hplic (by decide)
    (fun w _ _ => by simp only [KernelV]; omega) fun w _ _ => ?_) ?_
  · rw [h₂.pt, mapRange_of_not (by omega), h₁.pt, mapRange_of_not (by omega), h.zero w (by omega)]
  · rintro _ s₃ ⟨g₃, h₃⟩
    exact hrest s₃ g₃ (h₃.mapped hm₂ hflags (by omega) (Nat.le_refl _) (by decide))

/-- Text, data and free memory are mapped, and the trampoline. -/
theorem Mapped.memory (h : Mapped L k 65538 s g) (htext : L.etext - KERNBASE = text)
    (hdata : PHYSTOP - L.etext = data)
    (hrest : ∀ s' g', Booting L k s' g' → Identity L (g'.pt k) → (∀ y o, g'.own y ≠ .held o) →
      (∀ v, 557056 ≤ v → v < TFV → g'.pt k v = 0) → (∀ v, L.etext / PGSIZE ≤ v → v < PHYSTOP / PGSIZE →
        g'.pt k v = mkPte v (PTE_R ||| PTE_W ||| PTE_V)) → Wp rest NoError Q s') :
    Wp (do
      kvmmap (k * PGSIZE) KERNBASE KERNBASE text (PTE_R ||| PTE_X)
      kvmmap (k * PGSIZE) L.etext L.etext data (PTE_R ||| PTE_W)
      kvmmap (k * PGSIZE) TRAMPOLINE L.trampoline PGSIZE (PTE_R ||| PTE_X)
      rest) NoError Q s := by
  obtain ⟨e, htramp, hetext, he, he'⟩ := L.etext_page
  have hkern : KERNBASE = 524288 * PGSIZE := rfl
  rw [hetext, hkern, ← Nat.sub_mul] at htext
  rw [hetext, PHYSTOP_eq, ← Nat.sub_mul] at hdata
  have hMAXV : MAXV = 67108864 := rfl
  have hTFV : TFV = 67108862 := rfl
  refine .bind (h.booting.kvmmap hkern hkern htext.symm (by omega)
    (fun w _ _ => by simp only [KernelV]; omega) fun w _ _ => h.zero w (by omega)) ?_
  rintro _ s₁ ⟨g₁, h₁⟩
  have hm₁ := h₁.mapped (c := e) h (by decide) (by omega) (by omega) (by omega)
  refine .bind (hm₁.booting.kvmmap hetext hetext hdata.symm (by omega)
    (fun w _ _ => by simp only [KernelV]; omega) fun w _ _ => hm₁.zero w (by omega)) ?_
  rintro _ s₂ ⟨g₂, h₂⟩
  have hm₂ := h₂.mapped (c := 557056) hm₁ (by decide) (by omega) (by omega) (by omega)
  refine .bind (hm₂.booting.kvmmap (n := 1) TRAMPOLINE_eq L.trampoline_eq.symm (Nat.one_mul _).symm
    (by decide) (fun w _ _ => by simp only [KernelV]; omega) fun w _ _ => hm₂.zero w (by omega)) ?_
  rintro _ s₃ ⟨g₃, h₃⟩
  refine hrest s₃ g₃ h₃.booting ?_ (fun y o hy => hm₂.held y o ((h₃.held y o).1 hy))
    (fun v hv hv' => ?_) fun v hv hv' => ?_
  · rw [h₃.pt]
    exact hm₂.identity.trampoline (by decide)
  · rw [h₃.pt, mapRange_of_not (by omega), hm₂.zero v hv]
  · rw [hetext, page_div] at hv
    rw [PHYSTOP_eq, page_div] at hv'
    rw [h₃.pt, mapRange_of_not (by omega), h₂.pt, PbsCow.mapRange, if_pos (by omega),
      Nat.add_sub_cancel' hv]

/-- What `kvmmake` leaves behind. -/
structure KernelSpace (L : Layout) (k : Nat) (s : Mem) (g : Ghost) : Prop where
  booting : Booting L k s g
  leaf : ∀ v, g.pt k v ≠ 0 → ppn (g.pt k v) = v ∨ v = TFV + 1 ∧ ppn (g.pt k v) = L.trampoline / PGSIZE ∨
    ∃ i, i < NPROC ∧ v = kstackV i
  direct : ∀ v, L.etext / PGSIZE ≤ v → v < PHYSTOP / PGSIZE →
    g.pt k v = mkPte v (PTE_R ||| PTE_W ||| PTE_V)
  kstack : ∀ i, i < NPROC → ∃ x, g.pt k (kstackV i) = mkPte x (PTE_R ||| PTE_W ||| PTE_V) ∧
    g.own x = .held (.kstack i)
  holder : ∀ y o, g.own y = .held o → ∃ i, i < NPROC ∧ o = .kstack i

theorem kvmmake_spec (h : Good L s g ∅) (hown : ∀ x, g.own x = .outside ∨ g.own x = .free) :
    Wp (kvmmake L) NoError (fun ret s' => ∃ k g', ret = k * PGSIZE ∧ 0 < k * PGSIZE ∧
      KernelSpace L k s' g') s := by
  rw [kvmmake]
  cases hf : g.free with
  | nil =>
    have hle := h.rep.page.managed_le [] (fun x => (hown x).imp_right .inl) (by simp)
    rw [hf] at hle
    simp at hle
  | cons k f =>
    have hm := (h.rep.page.managed k).1 (by simp [h.rep.free_of_cons hf])
    refine .bind_ok (kalloc_cons (hf ▸ h.rep.page.freeRep)) (.ite_neg (Nat.ne_of_gt hm.pos) ?_)
    rw [memset, page_div, repeatByte_zero, wp_bind, wp_modify]
    generalize htext : L.etext - KERNBASE = text
    generalize hdata : PHYSTOP - L.etext = data
    refine (Mapped.start h hown hf).devices fun s₁ g₁ h₁ => h₁.memory htext hdata ?_
    intro s₂ g₂ hb hid hheld hz hdirect
    have hV (i : Nat) (hi : i < NPROC) : 557056 ≤ kstackV i ∧ kstackV i < TFV := by
      have hN : NPROC = 64 := rfl
      have hTFV : TFV = 67108862 := rfl
      rw [(KSTACK_eq hi).2]
      omega
    refine .bind (hb.procMapstacks (fun i hi => List.mem_range.1 hi) List.nodup_range
      (fun i _ y => hheld y _) fun i hi => ?_) ?_
    · obtain ⟨hi₁, hi₂⟩ := hV i (List.mem_range.1 hi)
      exact hz _ hi₁ hi₂
    rintro _ s₃ ⟨g₃, hb₃, hst⟩
    refine wp_pure.2 ⟨k, g₃, rfl, hm.pos, hb₃, fun v hv => ?_, fun v hv hv' => ?_, fun i hi => ?_,
      fun y o hy => ?_⟩
    · by_cases hk : ∃ i, i < NPROC ∧ v = kstackV i
      · exact .inr (.inr hk)
      · have hsame := hst.pt v fun i hi he => hk ⟨i, List.mem_range.1 hi, he⟩
        rw [hsame] at hv ⊢
        exact (hid v hv).imp_right .inl
    · rw [hst.pt v fun i hi he => ?_, hdirect v hv hv']
      have hi' := hV i (List.mem_range.1 hi)
      rw [PHYSTOP_eq, page_div] at hv'
      omega
    · exact hst.stack i (List.mem_range.2 hi)
    · rcases hst.holder y o hy with ho | ⟨i, hi, rfl⟩
      · exact (hheld y o ho).elim
      · exact ⟨i, List.mem_range.1 hi, rfl⟩

end PbsCow

import PbsCow.PageTable

namespace PbsCow
set_option autoImplicit true

def Ghost.setPte (g : Ghost) (r v : Nat) (e : Word) : Ghost :=
  { g with pt := Function.update g.pt r (Function.update (g.pt r) v e) }

@[simp] theorem Ghost.setPte_own (g : Ghost) : (g.setPte r v e).own = g.own := rfl

@[simp] theorem Ghost.setPte_free (g : Ghost) : (g.setPte r v e).free = g.free := rfl

theorem Ghost.setPte_pt (g : Ghost) (r v r' v' : Nat) (e : Word) :
    (g.setPte r v e).pt r' v' = if r' = r ∧ v' = v then e else g.pt r' v' := by
  by_cases hr : r' = r
  · subst hr
    by_cases hv : v' = v <;> simp [Ghost.setPte, hv]
  · simp [Ghost.setPte, hr]

@[simp] theorem Ghost.setPte_pt_self (g : Ghost) : (g.setPte r v e).pt r v = e := by
  simp [Ghost.setPte_pt]

theorem Ghost.setPte_pt_of_ne (g : Ghost) (h : v' ≠ v) :
    (g.setPte r v e).pt r' v' = g.pt r' v' := by
  simp [Ghost.setPte_pt, h]

theorem Ghost.setPte_pt_same (g : Ghost) :
    (g.setPte r v e).pt r = Function.update (g.pt r) v e :=
  Function.update_self _ _ _

theorem Ghost.setPte_pt_root (g : Ghost) (h : r' ≠ r) : (g.setPte r v e).pt r' = g.pt r' :=
  Function.update_of_ne h _ _

theorem Mem.load_slot (s : Mem) (x : Nat) (hi : i < 512) :
    s.load (x * PGSIZE + 8 * i) = s.ram x i := by
  rw [Mem.load, slot_div x hi, slot_mod x hi]

theorem Mem.store_slot (s : Mem) (x : Nat) (hi : i < 512) (w : Word) :
    s.store (x * PGSIZE + 8 * i) w = s.setPage x (Function.update (s.ram x) i w) := by
  rw [Mem.store, slot_div x hi, slot_mod x hi]

theorem PTE_V_lt : PTE_V.toNat < 1024 := by decide

theorem flag_link (q : Nat) : flag (mkPte q PTE_V) PTE_V = true := by
  rw [flag_V, getLsbD_mkPte q PTE_V (by decide)]
  decide

theorem PTE2PA_link (hq : q < 2 ^ 44) : PTE2PA (mkPte q PTE_V) = q * PGSIZE :=
  PTE2PA_mkPte hq PTE_V_lt

/-- Writing a leaf PTE changes the abstract map at that page and nowhere else. -/
theorem Rep.setPte (h : Rep L s g) (hq : g.own q = .table r 0 (v / 512)) (e : Word) :
    Rep L (s.store (q * PGSIZE + 8 * (v % 512)) e) (g.setPte r v e) := by
  have hi : v % 512 < 512 := Nat.mod_lt _ (by decide)
  rw [Mem.store_slot s q hi]
  have hram {x : Nat} (hx : x ≠ q) (p : Page) : (s.setPage q p).ram x = s.ram x :=
    Function.update_of_ne hx _ _
  have ht := h.table
  have hpage := h.page.setPage (x := q) (p := Function.update (s.ram q) (v % 512) e) (by simp [hq])
  refine ⟨?_, ht.unique, ht.level, ht.root, ht.parent, ?_, ?_, ?_⟩
  · exact ⟨hpage.freeRep, hpage.mem_free, hpage.managed, hpage.count_table, hpage.count_held,
      hpage.count_user⟩
  · intro x r' l p i hx hi'
    have hne : x ≠ q := by
      rintro rfl
      simp [hq] at hx
    rw [hram hne]
    exact ht.link hx hi'
  · intro x r' p i hx hi'
    rw [Ghost.setPte_own] at hx
    rw [Ghost.setPte_pt]
    by_cases hxq : x = q
    · subst hxq
      have he := hq.symm.trans hx
      simp only [Owner.table.injEq, true_and] at he
      obtain ⟨rfl, rfl⟩ := he
      have hiff : v / 512 * 512 + i = v ↔ i = v % 512 := by omega
      have hself : (s.setPage x (Function.update (s.ram x) (v % 512) e)).ram x =
          Function.update (s.ram x) (v % 512) e := Function.update_self _ _ _
      rw [hself]
      by_cases hiv : i = v % 512
      · rw [if_pos ⟨rfl, hiff.2 hiv⟩, hiv, Function.update_self]
      · rw [if_neg fun hc => hiv (hiff.1 hc.2), Function.update_of_ne hiv, ht.leaf hx hi']
    · rw [hram hxq, ht.leaf hx hi', if_neg]
      rintro ⟨rfl, hv⟩
      have hp : p = v / 512 := by omega
      exact hxq (ht.unique hx (hp ▸ hq))
  · intro r' v' hv
    rw [Ghost.setPte_pt, if_neg]
    · exact ht.none hv
    · rintro ⟨rfl, rfl⟩
      exact hv q hq

theorem child_pre (v level : Nat) :
    v / 512 ^ (level + 2) * 512 + v / 512 ^ (level + 1) % 512 = v / 512 ^ (level + 1) := by
  have hd : v / 512 ^ (level + 2) = v / 512 ^ (level + 1) / 512 := by
    rw [Nat.div_div_eq_div_mul, ← Nat.pow_succ]
  rw [hd]
  omega

/-- The entry that `walk` inspects at an inner level. -/
theorem Rep.walk_link (h : Rep L s g) (hx : g.own x = .table r (level + 1) (va / PGSIZE / 512 ^ (level + 2))) :
    Link g (s.load (x * PGSIZE + 8 * PX (level + 1) va)) r level
      (va / PGSIZE / 512 ^ (level + 1)) := by
  have hl := h.table.link hx (PX_lt (level + 1) va)
  rw [← Mem.load_slot s x (PX_lt _ _)] at hl
  have hp : va / PGSIZE / 512 ^ (level + 2) * 512 + PX (level + 1) va =
      va / PGSIZE / 512 ^ (level + 1) := by
    rw [PX_eq, child_pre]
  rwa [hp] at hl

/-- `a` is the address of the leaf PTE for page `v`, or 0 if it has no page-table page yet. -/
def IsSlot (g : Ghost) (r v a : Nat) : Prop :=
  (∃ q, g.own q = .table r 0 (v / 512) ∧ a = q * PGSIZE + 8 * (v % 512)) ∨
    ((∀ q, g.own q ≠ .table r 0 (v / 512)) ∧ a = 0)

theorem Rep.walkLoop_false (h : Rep L s g)
    (hx : g.own x = .table r level (va / PGSIZE / 512 ^ (level + 1))) (hl : level ≤ 2) :
    Wp (walkLoop false level (x * PGSIZE) va) NoError
      (fun a s' => s = s' ∧ IsSlot g r (va / PGSIZE) a) s := by
  induction level generalizing x with
  | zero =>
    have hp : PX 0 va = va / PGSIZE % 512 := by simpa using PX_eq 0 va
    rw [walkLoop, wp_pure, hp]
    exact ⟨rfl, .inl ⟨x, by simpa using hx, rfl⟩⟩
  | succ level ih =>
    simp only [walkLoop, loadWord, wp_bind, wp_get, wp_pure]
    rcases h.walk_link hx with ⟨q, hq, he⟩ | ⟨hq, he⟩
    · have hlt := h.page.lt44 (x := q) (by simp [hq])
      rw [he, flag_link, if_pos rfl, PTE2PA_link hlt]
      exact ih hq (by omega)
    · rw [he]
      refine wp_pure.2 ⟨rfl, .inr ⟨fun q' hq' => ?_, rfl⟩⟩
      obtain ⟨y, hy⟩ := h.table.ancestor hq' (l := level) (by omega)
      exact hq y hy

/-- The root of a live page table. -/
def Ghost.Live (g : Ghost) (r : Nat) : Prop := g.own r = .table r 2 0

theorem va_top (hva : va < MAXVA) : va / PGSIZE / 512 ^ (2 + 1) = 0 := by
  rw [MAXVA_eq] at hva
  simp only [PGSIZE] at *
  omega

theorem Rep.walk_false (h : Rep L s g) (hr : g.Live r) (hva : va < MAXVA) :
    Wp (walk (r * PGSIZE) va false) NoError
      (fun a s' => s = s' ∧ IsSlot g r (va / PGSIZE) a) s := by
  rw [walk]
  refine .ite_neg (Nat.not_le_of_gt hva) ?_
  exact h.walkLoop_false (by rw [va_top hva]; exact hr) (Nat.le_refl 2)

def Ghost.addTable (g : Ghost) (x : Nat) (f : List Nat) (r l p : Nat) : Ghost :=
  { g with own := Function.update g.own x (.table r l p), free := f }

theorem Ghost.addTable_own (g : Ghost) (h : y ≠ x) : (g.addTable x f r l p).own y = g.own y :=
  Function.update_of_ne h _ _

@[simp] theorem Ghost.addTable_own_self (g : Ghost) :
    (g.addTable x f r l p).own x = .table r l p :=
  Function.update_self _ _ _

/-- Hanging a zeroed page into an empty slot of a page-table page. -/
theorem TableRep.addTable (h : TableRep ram g) (hx : g.own x = .free)
    (hy : g.own y = .table r (l + 1) p) (hi : i < 512)
    (hno : ∀ q, g.own q ≠ .table r l (p * 512 + i)) (hram : ∀ z, z ≠ x → z ≠ y → m z = ram z)
    (hx0 : ∀ j, m x j = 0)
    (hy' : m y = Function.update (ram y) i (mkPte x PTE_V)) :
    TableRep m (g.addTable x f r l (p * 512 + i)) := by
  have hxy : y ≠ x := by
    rintro rfl
    simp [hx] at hy
  have hne {z r' l' p' : Nat} (hz : g.own z = .table r' l' p') : z ≠ x := by
    rintro rfl
    simp [hx] at hz
  have hkeep {z r' l' p' : Nat} (hz : g.own z = .table r' l' p') :
      (g.addTable x f r l (p * 512 + i)).own z = .table r' l' p' := by
    rw [g.addTable_own (hne hz)]
    exact hz
  have hl := h.level hy
  -- the page-table pages of the new view are the old ones and `x`
  have hcases {z r' l' p' : Nat}
      (hz : (g.addTable x f r l (p * 512 + i)).own z = .table r' l' p') :
      (z = x ∧ r' = r ∧ l' = l ∧ p' = p * 512 + i) ∨ g.own z = .table r' l' p' := by
    by_cases hzx : z = x
    · rw [hzx, g.addTable_own_self, Owner.table.injEq] at hz
      exact .inl ⟨hzx, hz.1.symm, hz.2.1.symm, hz.2.2.symm⟩
    · exact .inr (by rwa [g.addTable_own hzx] at hz)
  constructor
  · intro z w r' l' p' hz hw
    rcases hcases hz with ⟨hzx, hr, hl, hp⟩ | hz' <;>
      rcases hcases hw with ⟨hwx, hr', hl', hp'⟩ | hw'
    · exact hzx.trans hwx.symm
    · exact (hno w (by rw [hw', hr, hl, hp])).elim
    · exact (hno z (by rw [hz', hr', hl', hp'])).elim
    · exact h.unique hz' hw'
  · intro z r' l' p' hz
    rcases hcases hz with ⟨rfl, rfl, rfl, rfl⟩ | hz
    · omega
    · exact h.level hz
  · intro z r' p' hz
    rcases hcases hz with ⟨rfl, rfl, hl', rfl⟩ | hz
    · omega
    · exact h.root hz
  · intro z r' l' p' hz hl'
    rcases hcases hz with ⟨rfl, rfl, rfl, rfl⟩ | hz
    · refine ⟨y, hkeep (by rw [hy]; congr 1; omega)⟩
    · obtain ⟨w, hw⟩ := h.parent hz hl'
      exact ⟨w, hkeep hw⟩
  · intro z r' l' p' j hz hj
    rcases hcases hz with ⟨rfl, rfl, rfl, rfl⟩ | hz'
    · rw [hx0]
      refine .inr ⟨fun q hq => ?_, rfl⟩
      rcases hcases hq with ⟨_, _, hl', _⟩ | hq
      · omega
      · obtain ⟨w, hw⟩ := h.parent hq (by omega)
        have he : ((p * 512 + i) * 512 + j) / 512 = p * 512 + i := by omega
        exact hno w (he ▸ hw)
    · by_cases hslot : z = y ∧ j = i
      · have he := hy.symm.trans (hslot.1 ▸ hz')
        simp only [Owner.table.injEq, Nat.add_right_cancel_iff] at he
        obtain ⟨rfl, rfl, rfl⟩ := he
        rw [hslot.1, hslot.2, hy', Function.update_self]
        exact .inl ⟨x, by simp, rfl⟩
      · have hsame : m z j = ram z j := by
          by_cases hzy : z = y
          · have hji : j ≠ i := fun hji => hslot ⟨hzy, hji⟩
            rw [hzy, hy', Function.update_of_ne hji]
          · rw [hram z (hne hz') hzy]
        rw [hsame]
        rcases h.link hz' hj with ⟨q, hq, he⟩ | ⟨hq, he⟩
        · exact .inl ⟨q, hkeep hq, he⟩
        · refine .inr ⟨fun q hq' => ?_, he⟩
          rcases hcases hq' with ⟨_, rfl, rfl, hp'⟩ | hq'
          · have hpp : p' = p := by omega
            have hji : j = i := by omega
            exact hslot ⟨h.unique hz' (hpp ▸ hy), hji⟩
          · exact hq q hq'
  · intro z r' p' j hz hj
    rcases hcases hz with ⟨rfl, rfl, hl', rfl⟩ | hz
    · rw [hx0]
      refine (h.none fun w hw => ?_).symm
      have he : ((p * 512 + i) * 512 + j) / 512 = p * 512 + i := by omega
      exact hno w (by rw [← hl', ← he]; exact hw)
    · have hzy : z ≠ y := by
        rintro rfl
        simp [hy] at hz
      rw [hram z (hne hz) hzy]
      exact h.leaf hz hj
  · intro r' v hv
    exact h.none fun w hw => hv w (hkeep hw)

/-- What allocating page-table pages below root `r` for pages in `V` does to the rest of memory;
at most `k` pages are taken from the free list. -/
structure Grow (r : Nat) (V : Nat → Prop) (k : Nat) (s s' : Mem) (g g' : Ghost) : Prop where
  pt : ∀ r', r' ≠ r → g'.pt r' = g.pt r'
  keep : ∀ x, g.own x ≠ .free → g'.own x = g.own x
  new : ∀ x, g.own x = .free →
    g'.own x = .free ∨ ∃ v l, V v ∧ l < 2 ∧ g'.own x = .table r l (v / 512 ^ (l + 1))
  ram : ∀ x, g.own x ≠ .free → (∀ l p, g.own x ≠ .table r l p) → s'.ram x = s.ram x
  count : ∀ x, g.own x ≠ .free → s'.count x = s.count x
  free : ∃ t, g.free = t ++ g'.free ∧ t.length ≤ k

theorem Grow.refl (r : Nat) (V : Nat → Prop) (s : Mem) (g : Ghost) : Grow r V 0 s s g g where
  pt _ _ := rfl
  keep _ _ := rfl
  new _ h := .inl h
  ram _ _ _ := rfl
  count _ _ := rfl
  free := ⟨[], rfl, Nat.le_refl 0⟩

theorem Grow.trans (h : Grow r V k s s' g g') (h' : Grow r V k' s' s'' g' g'') :
    Grow r V (k + k') s s'' g g'' where
  pt r' hr := (h'.pt r' hr).trans (h.pt r' hr)
  keep x hx := by
    have hk := h.keep x hx
    exact (h'.keep x (hk ▸ hx)).trans hk
  new x hx := by
    rcases h.new x hx with hf | ⟨v, l, hv, hl, ho⟩
    · exact h'.new x hf
    · exact .inr ⟨v, l, hv, hl, (h'.keep x (by simp [ho])).trans ho⟩
  ram x hx ht := by
    have hk := h.keep x hx
    rw [h'.ram x (hk ▸ hx) (by simpa only [hk] using ht), h.ram x hx ht]
  count x hx := by
    have hk := h.keep x hx
    rw [h'.count x (hk ▸ hx), h.count x hx]
  free := by
    obtain ⟨t, ht, hk⟩ := h.free
    obtain ⟨t', ht', hk'⟩ := h'.free
    refine ⟨t ++ t', by rw [ht, ht', List.append_assoc], ?_⟩
    rw [List.length_append]
    omega

theorem Grow.mono (h : Grow r V k s s' g g') (hV : ∀ v, V v → W v) (hk : k ≤ k') :
    Grow r W k' s s' g g' := by
  obtain ⟨hp, hkeep, hnew, hram, hcount, t, ht, htk⟩ := h
  refine ⟨hp, hkeep, fun x hx => ?_, hram, hcount, t, ht, by omega⟩
  rcases hnew x hx with hf | ⟨v, l, hv, hl, ho⟩
  · exact .inl hf
  · exact .inr ⟨v, l, hV v hv, hl, ho⟩

theorem Grow.live (h : Grow r V k s s' g g') (hr : g.Live r') : g'.Live r' :=
  (h.keep r' (by rw [hr]; simp)).trans hr

theorem repeatByte_zero : repeatByte 0 = 0 := by decide

/-- `walk` with `alloc` set: it fails only when the free list has run out. -/
theorem Rep.walkLoop_true (h : Rep L s g)
    (hx : g.own x = .table r level (va / PGSIZE / 512 ^ (level + 1))) (hl : level ≤ 2) :
    Wp (walkLoop true level (x * PGSIZE) va) NoError (fun a s' => ∃ g', Rep L s' g' ∧
      Grow r (· = va / PGSIZE) level s s' g g' ∧ g'.pt = g.pt ∧
      (a = 0 ∧ g'.free = [] ∧ (∀ q, g.own q ≠ .table r 0 (va / PGSIZE / 512)) ∨
        ∃ q, g'.own q = .table r 0 (va / PGSIZE / 512) ∧
          a = q * PGSIZE + 8 * (va / PGSIZE % 512))) s := by
  induction level generalizing x s g with
  | zero =>
    have hp : PX 0 va = va / PGSIZE % 512 := by simpa using PX_eq 0 va
    rw [walkLoop, wp_pure, hp]
    exact ⟨g, h, .refl _ _ _ _, rfl, .inr ⟨x, by simpa using hx, rfl⟩⟩
  | succ level ih =>
    simp only [walkLoop, loadWord, wp_bind, wp_get, wp_pure]
    rcases h.walk_link hx with ⟨q, hq, he⟩ | ⟨hq, he⟩
    · have hlt := h.page.lt44 (x := q) (by simp [hq])
      rw [he, flag_link, if_pos rfl, PTE2PA_link hlt]
      refine (ih h hq (by omega)).mono ?_
      rintro a s' ⟨g', hr, hg, hp, ha⟩
      exact ⟨g', hr, hg.mono (fun _ hv => hv) (by omega), hp, ha⟩
    · rw [he]
      refine .ite_neg (by decide) (.ite_neg (by decide) ?_)
      have hnone : ∀ q, g.own q ≠ .table r 0 (va / PGSIZE / 512) := by
        intro q' hq'
        obtain ⟨y, hy⟩ := h.table.ancestor hq' (l := level) (by omega)
        exact hq y hy
      cases hf : g.free with
      | nil =>
        have hk := kalloc_nil (hf ▸ h.page.freeRep)
        refine .bind_ok hk (.ite_pos rfl ?_)
        exact wp_pure.2 ⟨g, h, (Grow.refl _ _ _ _).mono (fun _ hv => hv) (by omega), rfl,
          .inl ⟨rfl, hf, hnone⟩⟩
      | cons y f =>
        have hfree : g.own y = .free := (h.page.mem_free y).1 (by simp [hf])
        have hyx : x ≠ y := by
          rintro rfl
          simp [hfree] at hx
        have hm := (h.page.managed y).1 (by simp [hfree])
        have hk := kalloc_cons (hf ▸ h.page.freeRep)
        refine .bind_ok hk (.ite_neg (Nat.ne_of_gt hm.pos) ?_)
        have hpre := child_pre (va / PGSIZE) level
        rw [← PX_eq] at hpre
        have hi := PX_lt (level + 1) va
        simp only [memset, storeWord, wp_bind, wp_modify, page_div, repeatByte_zero]
        have hlink : PA2PTE (y * PGSIZE) ||| PTE_V = mkPte y PTE_V := rfl
        rw [hlink, Mem.store_slot _ x hi]
        have hpage := (h.page.alloc hf (o := .table r level (va / PGSIZE / 512 ^ (level + 1)))
          (by simp) (by simp)).setPage (x := y) (p := fun _ => 0) (by simp)
        have hpage' := hpage.setPage (x := x) (p := Function.update
          (((s.alloc y).setPage y fun _ => 0).ram x) (PX (level + 1) va) (mkPte y PTE_V))
          (by simp [hyx, hx])
        have htab := h.table.addTable (f := f) (m := ((s.alloc y).setPage y fun _ => 0).setPage x
          (Function.update (((s.alloc y).setPage y fun _ => 0).ram x) (PX (level + 1) va)
            (mkPte y PTE_V)) |>.ram) hfree hx hi (by rwa [hpre])
          (fun z hz hz' => by simp [Mem.setPage, Mem.alloc, hz, hz'])
          (fun j => by simp [Mem.setPage, hyx.symm])
          (by simp [Mem.setPage, Mem.alloc, hyx])
        rw [hpre] at htab
        have hrep : Rep L _ (g.addTable y f r level (va / PGSIZE / 512 ^ (level + 1))) :=
          ⟨hpage', htab⟩
        refine (ih hrep (by simp) (by omega)).mono ?_
        rintro a s' ⟨g', hr, hg, hp, ha⟩
        refine ⟨g', hr, ?_, hp, ha.imp_left fun ⟨h1, h2, _⟩ => ⟨h1, h2, hnone⟩⟩
        have hstep : Grow r (· = va / PGSIZE) 1 s
            (((s.alloc y).setPage y fun _ => 0).setPage x
              (Function.update (((s.alloc y).setPage y fun _ => 0).ram x) (PX (level + 1) va)
                (mkPte y PTE_V))) g
            (g.addTable y f r level (va / PGSIZE / 512 ^ (level + 1))) := by
          refine ⟨fun _ _ => rfl, fun z hz => ?_, fun z hz => ?_, fun z hz ht => ?_,
            fun z hz => ?_, [y], hf, Nat.le_refl 1⟩
          · exact g.addTable_own (by rintro rfl; exact hz hfree)
          · by_cases hzy : z = y
            · subst hzy
              exact .inr ⟨_, level, rfl, by omega, by simp⟩
            · exact .inl ((g.addTable_own hzy).trans hz)
          · have hzy : z ≠ y := by
              rintro rfl
              exact hz hfree
            have hzx : z ≠ x := by
              rintro rfl
              exact ht _ _ hx
            simp [Mem.setPage, Mem.alloc, hzy, hzx]
          · have hzy : z ≠ y := by
              rintro rfl
              exact hz hfree
            simp [Mem.setPage, Mem.alloc, hzy]
        exact (hstep.trans hg).mono (fun _ hv => hv) (by omega)

theorem Rep.walk_true (h : Rep L s g) (hr : g.Live r) (hva : va < MAXVA) :
    Wp (walk (r * PGSIZE) va true) NoError (fun a s' => ∃ g', Rep L s' g' ∧
      Grow r (· = va / PGSIZE) 2 s s' g g' ∧ g'.pt = g.pt ∧
      (a = 0 ∧ g'.free = [] ∧ (∀ q, g.own q ≠ .table r 0 (va / PGSIZE / 512)) ∨
        ∃ q, g'.own q = .table r 0 (va / PGSIZE / 512) ∧
          a = q * PGSIZE + 8 * (va / PGSIZE % 512))) s := by
  rw [walk]
  refine .ite_neg (Nat.not_le_of_gt hva) ?_
  exact h.walkLoop_true (by rw [va_top hva]; exact hr) (Nat.le_refl 2)

end PbsCow

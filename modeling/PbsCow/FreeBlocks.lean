import PbsCow.Lib.SortedRing

namespace PbsCow.Umalloc
set_option autoImplicit true

/-- Where the program has `base`, and the break that it starts with. -/
structure Layout where
  base : Nat
  start : Nat
  pos : 0 < base
  below : base + 16 ≤ start

/-- `p + p->s.size`, for a header of 16 bytes. -/
def after (size : Nat → Nat) (p : Nat) : Nat := p + 16 * size p

/-- A block that lies in the heap. -/
structure InHeap (L : Layout) (brk : Nat) (size : Nat → Nat) (p : Nat) : Prop where
  start : L.start ≤ p
  pos : 0 < size p
  brk : after size p ≤ brk

/-- Two blocks do not overlap. -/
def Apart (size : Nat → Nat) (p q : Nat) : Prop := after size p ≤ q ∨ after size q ≤ p

/-- The free blocks, with `base`: a ring in the order of the addresses, without overlap. -/
structure Blocks (L : Layout) (brk : Nat) (ptr size : Nat → Nat) (F : Finset Nat) : Prop where
  base : L.base ∈ F
  ring : SortedRing ptr F
  flat : size L.base = 0
  inside : ∀ f, f ∈ F → f ≠ L.base → InHeap L brk size f
  apart : ∀ f g, f ∈ F → g ∈ F → f < g → after size f ≤ g

/-- A block does not end where the next one begins. -/
def Loose (ptr size : Nat → Nat) (f : Nat) : Prop := f < ptr f → after size f ≠ ptr f

/-- A block that is none of a set of blocks, and apart from them. -/
structure Clear (size : Nat → Nat) (F : Finset Nat) (b : Nat) : Prop where
  pos : 0 < size b
  notMem : b ∉ F
  apart : ∀ f, f ∈ F → Apart size f b

variable {L : Layout} {brk : Nat} {ptr size : Nat → Nat} {F : Finset Nat}

theorem Apart.symm (h : Apart size p q) : Apart size q p := Or.symm h

theorem after_update_ne (h : q ≠ p) : after (Function.update size p n) q = after size q := by
  rw [after, Function.update_of_ne h, after]

theorem after_update_self : after (Function.update size p n) p = p + 16 * n := by
  rw [after, Function.update_self]

theorem InHeap.update_ne (h : InHeap L brk size q) (hq : q ≠ p) : InHeap L brk (Function.update size p n) q :=
  ⟨h.start, by rw [Function.update_of_ne hq]; exact h.pos, by rw [after_update_ne hq]; exact h.brk⟩

theorem InHeap.ne_of_apart (h : InHeap L brk size p) (hap : Apart size q p) (hq : InHeap L brk size q) : p ≠ q := by
  rintro rfl
  have hpos := h.pos
  rw [Apart, after] at hap
  omega

/-- A block in the heap is none of the free ones if it is apart from them. -/
theorem Blocks.notMem (h : Blocks L brk ptr size F) (hin : InHeap L brk size b)
    (hap : ∀ f, f ∈ F → Apart size f b) : b ∉ F := by
  intro hb
  have hne : b ≠ L.base := by
    have hs := hin.start
    have hbelow := L.below
    omega
  exact hin.ne_of_apart (hap b hb) (h.inside b hb hne) rfl

theorem Blocks.base_le (h : Blocks L brk ptr size F) (hf : f ∈ F) : L.base ≤ f := by
  by_cases hb : f = L.base
  · exact hb.ge
  · have hs := (h.inside f hf hb).start
    have hbelow := L.below
    omega

theorem Blocks.mem_le (h : Blocks L brk ptr size F) (hf : f ∈ F) (hbrk : L.start ≤ brk) : after size f ≤ brk := by
  by_cases hb : f = L.base
  · have hbelow := L.below
    rw [hb, after, h.flat]
    omega
  · exact (h.inside f hf hb).brk

theorem Blocks.header_le (h : Blocks L brk ptr size F) (hf : f ∈ F) (hbrk : L.start ≤ brk) : f + 16 ≤ brk := by
  by_cases hb : f = L.base
  · rw [hb]
    exact L.below.trans hbrk
  · have hin := h.inside f hf hb
    have hpos := hin.pos
    have hle := hin.brk
    rw [after] at hle
    omega

/-- A block that is apart from the free ones gets its place among them. -/
theorem Blocks.insert (h : Blocks L brk ptr size F) (hp : p ∈ F) (hbt : Between p b (ptr p))
    (hin : InHeap L brk size b) (hap : ∀ f, f ∈ F → Apart size f b) :
    Blocks L brk (Function.update (Function.update ptr b (ptr p)) p b) size (insert b F) := by
  refine ⟨Finset.mem_insert_of_mem h.base, h.ring.insert hp (h.notMem hin hap) hbt, h.flat, ?_, ?_⟩
  · intro f hf hne
    rcases Finset.mem_insert.mp hf with rfl | hf
    · exact hin
    · exact h.inside f hf hne
  · have hpos := hin.pos
    intro f g hf' hg' hlt
    rcases Finset.mem_insert.mp hf' with rfl | hf
    · rcases Finset.mem_insert.mp hg' with rfl | hg
      · exact absurd hlt (lt_irrefl _)
      · rcases hap g hg with hle | hle
        · rw [after] at hle
          omega
        · exact hle
    · rcases Finset.mem_insert.mp hg' with rfl | hg
      · rcases hap f hf with hle | hle
        · exact hle
        · rw [after] at hle
          omega
      · exact h.apart f g hf hg hlt

/-- A free block is taken out. -/
theorem Blocks.remove (h : Blocks L brk ptr size F) (hp : p ∈ F) (hbase : ptr p ≠ L.base) (hne : ptr p ≠ p) :
    Blocks L brk (Function.update ptr p (ptr (ptr p))) size (F.erase (ptr p)) := by
  refine ⟨Finset.mem_erase.mpr ⟨hbase.symm, h.base⟩, h.ring.erase hp hne, h.flat, ?_, ?_⟩
  · exact fun f hf => h.inside f (Finset.mem_of_mem_erase hf)
  · exact fun f g hf hg => h.apart f g (Finset.mem_of_mem_erase hf) (Finset.mem_of_mem_erase hg)

theorem Blocks.next_ne_base (h : Blocks L brk ptr size F) (hf : f ∈ F) (hlt : f < ptr f) : ptr f ≠ L.base := by
  intro he
  have hle := h.base_le hf
  omega

/-- A free block takes in the next one, which begins where it ends. -/
theorem Blocks.join (h : Blocks L brk ptr size F) (hf : f ∈ F) (hlt : f < ptr f) (hadj : after size f = ptr f) :
    Blocks L brk (Function.update ptr f (ptr (ptr f))) (Function.update size f (size f + size (ptr f)))
      (F.erase (ptr f)) := by
  have hbase := h.next_ne_base hf hlt
  have hq := (h.ring f hf).1
  have hqin := h.inside _ hq hbase
  have hfbase : f ≠ L.base := by
    intro he
    rw [he, after, h.flat] at hadj
    rw [he] at hlt
    omega
  have hfin := h.inside f hf hfbase
  have hend : after (Function.update size f (size f + size (ptr f))) f = after size (ptr f) := by
    rw [after_update_self, after, ← hadj, after]
    omega
  refine ⟨Finset.mem_erase.mpr ⟨hbase.symm, h.base⟩, h.ring.erase hf hlt.ne', ?_, ?_, ?_⟩
  · rw [Function.update_of_ne hfbase.symm, h.flat]
  · intro g hg hne
    by_cases hgf : g = f
    · rw [hgf]
      refine ⟨hfin.start, ?_, ?_⟩
      · rw [Function.update_self]
        exact Nat.add_pos_left hfin.pos _
      · rw [hend]
        exact hqin.brk
    · exact (h.inside g (Finset.mem_of_mem_erase hg) hne).update_ne hgf
  · intro x g hx hg hxg
    have hxF := Finset.mem_of_mem_erase hx
    have hgF := Finset.mem_of_mem_erase hg
    by_cases hxf : x = f
    · rw [hxf, hend]
      rw [hxf] at hxg
      apply h.apart _ _ hq hgF
      exact lt_of_le_of_ne (h.ring.gap hf hgF hxg).2 (Ne.symm (Finset.ne_of_mem_erase hg))
    · rw [after_update_ne hxf]
      exact h.apart x g hxF hgF hxg

/-- A free block gives up its end. -/
theorem Blocks.shrink (h : Blocks L brk ptr size F) (hne : f ≠ L.base) (hpos : 0 < n) (hn : n ≤ size f) :
    Blocks L brk ptr (Function.update size f n) F := by
  have hle : after (Function.update size f n) f ≤ after size f := by
    rw [after_update_self, after]
    omega
  refine ⟨h.base, h.ring, ?_, ?_, ?_⟩
  · rw [Function.update_of_ne hne.symm, h.flat]
  · intro g hg hgb
    by_cases hgf : g = f
    · rw [hgf] at hg hgb ⊢
      have hin := h.inside f hg hgb
      refine ⟨hin.start, ?_, hle.trans hin.brk⟩
      rw [Function.update_self]
      exact hpos
    · exact (h.inside g hg hgb).update_ne hgf
  · intro x g hx hg hxg
    by_cases hxf : x = f
    · rw [hxf] at hx hxg ⊢
      exact hle.trans (h.apart f g hx hg hxg)
    · rw [after_update_ne hxf]
      exact h.apart x g hx hg hxg

/-- What is apart from both halves is apart from the whole. -/
theorem Apart.join (h : Apart size f b) (h' : Apart size q b) (hb : 0 < size b) (hadj : after size f = q)
    (hne : b ≠ f) : Apart (Function.update size f (size f + size q)) f b := by
  rw [Apart, after_update_self, after_update_ne hne]
  simp only [Apart, after] at *
  omega

theorem Apart.shrink (h : Apart size f b) (hne : b ≠ f) (hn : n ≤ size f) :
    Apart (Function.update size f n) f b := by
  rw [Apart, after_update_self, after_update_ne hne]
  simp only [Apart, after] at *
  omega

theorem Apart.update (h : Apart size f b) (hf : f ≠ p) (hb : b ≠ p) : Apart (Function.update size p n) f b := by
  rw [Apart, after_update_ne hf, after_update_ne hb]
  exact h

theorem Clear.join (h : Clear size F b) (hf : f ∈ F) (hq : q ∈ F) (hadj : after size f = q) :
    Clear (Function.update size f (size f + size q)) (F.erase q) b := by
  have hbf : b ≠ f := fun he => h.notMem (he ▸ hf)
  refine ⟨?_, fun hb => h.notMem (Finset.mem_of_mem_erase hb), fun g hg => ?_⟩
  · rw [Function.update_of_ne hbf]
    exact h.pos
  · by_cases hgf : g = f
    · rw [hgf]
      exact (h.apart f hf).join (h.apart q hq) h.pos hadj hbf
    · exact (h.apart g (Finset.mem_of_mem_erase hg)).update hgf hbf

/-- What the free list is after a step that keeps the heap. -/
structure Ring (L : Layout) (brk : Nat) (ptr size : Nat → Nat) (F : Finset Nat) : Prop extends
    Blocks L brk ptr size F where
  loose : ∀ f, f ∈ F → Loose ptr size f

/-- Joining a block with the next one leaves it as loose as that was. -/
theorem Blocks.join_loose (h : Blocks L brk ptr size F) (hf : f ∈ F)
    (hadj : after size f = ptr f) (hq : Loose ptr size (ptr f)) :
    Loose (Function.update ptr f (ptr (ptr f))) (Function.update size f (size f + size (ptr f))) f := by
  have hqF := (h.ring f hf).1
  have hend : after (Function.update size f (size f + size (ptr f))) f = after size (ptr f) := by
    rw [after_update_self, after, ← hadj, after]
    omega
  rw [Loose, hend, Function.update_self]
  intro hup
  apply hq
  by_contra hle
  exact absurd hup (not_lt_of_ge (h.ring.wrap hqF (le_of_not_gt hle) hf).2)

theorem Loose.update (h : Loose ptr size f) (hf : f ≠ p) :
    Loose (Function.update ptr p q) (Function.update size p n) f := by
  rw [Loose, after_update_ne hf, Function.update_of_ne hf]
  exact h

/-- What `free` makes of the list: `b` is among the blocks or in one of them. -/
structure Freed (L : Layout) (brk : Nat) (size : Nat → Nat) (F : Finset Nat) (p b : Nat)
    (ptr' size' : Nat → Nat) (F' : Finset Nat) : Prop where
  ring : Ring L brk ptr' size' F'
  mem : p ∈ F'
  fits : ∃ t, t ∈ F' ∧ size b ≤ size' t
  clear : ∀ l, Clear size (insert b F) l → Clear size' F' l ∧ size' l = size l

/-- The block takes in the one after it, if it ends where that begins. -/
theorem Ring.free_right (h : Ring L brk ptr size F) (hp : p ∈ F) (hbt : Between p b (ptr p))
    (hin : InHeap L brk size b) (hap : ∀ f, f ∈ F → Apart size f b) {q : Nat} {size₁ : Nat → Nat}
    (hq : q = if after size b = ptr p then ptr (ptr p) else ptr p)
    (hsize : size₁ = if after size b = ptr p then Function.update size b (size b + size (ptr p)) else size) :
    ∃ F₁, Blocks L brk (Function.update (Function.update ptr b q) p b) size₁ F₁ ∧ p ∈ F₁ ∧ b ∈ F₁ ∧
      (∀ f, f ∈ F₁ → f ≠ p → Loose (Function.update (Function.update ptr b q) p b) size₁ f) ∧
      size b ≤ size₁ b ∧ size₁ p = size p ∧
      ∀ l, Clear size (insert b F) l → Clear size₁ F₁ l ∧ size₁ l = size l := by
  have hb := h.notMem hin hap
  have hpb : p ≠ b := fun he => hb (he ▸ hp)
  have hins := h.insert hp hbt hin hap
  have hloose : ∀ f, f ∈ insert b F → f ≠ p → f ≠ b →
      Loose (Function.update (Function.update ptr b (ptr p)) p b) size f := by
    intro f hf hfp hfb
    rw [Loose, Function.update_of_ne hfp, Function.update_of_ne hfb]
    exact h.loose f ((Finset.mem_insert.mp hf).resolve_left hfb)
  by_cases hadj : after size b = ptr p
  · rw [if_pos hadj] at hq hsize
    have hpos := hin.pos
    have hlt : b < ptr p := by
      rw [← hadj, after]
      omega
    have hqF := (h.ring p hp).1
    have hqb : ptr p ≠ b := hlt.ne'
    have hqp : ptr p ≠ p := by
      intro he
      rcases hbt with ⟨h1, h2⟩ | ⟨_, h1 | h2⟩
      · omega
      · omega
      · have hwrap := h.ring.wrap hp he.le h.base
        have hle := h.base_le hp
        have hs := hin.start
        have hbelow := L.below
        omega
    -- the pointers as they are once the block is in the list
    have hb₁ : (Function.update (Function.update ptr b (ptr p)) p b) b = ptr p := by
      rw [Function.update_of_ne hpb.symm, Function.update_self]
    have hq₁ : (Function.update (Function.update ptr b (ptr p)) p b) (ptr p) = ptr (ptr p) := by
      rw [Function.update_of_ne hqp, Function.update_of_ne hqb]
    have hjoin := hins.join (Finset.mem_insert_self b F) (by rw [hb₁]; exact hlt) (by rw [hb₁]; exact hadj)
    have hjoined := hins.join_loose (Finset.mem_insert_self b F)
      (by rw [hb₁]; exact hadj) (by rw [hb₁]; exact hloose _ (Finset.mem_insert_of_mem hqF) hqp hqb)
    have hptr : Function.update (Function.update (Function.update ptr b (ptr p)) p b) b (ptr (ptr p)) =
        Function.update (Function.update ptr b q) p b := by
      rw [Function.update_comm hpb, Function.update_idem, hq]
    rw [hb₁, hq₁, hptr, ← hsize] at hjoin hjoined
    refine ⟨_, hjoin, ?_, ?_, ?_, ?_, ?_, ?_⟩
    · exact Finset.mem_erase.mpr ⟨hqp.symm, Finset.mem_insert_of_mem hp⟩
    · exact Finset.mem_erase.mpr ⟨hqb.symm, Finset.mem_insert_self b F⟩
    · intro f hf hfp
      by_cases hfb : f = b
      · rw [hfb]
        exact hjoined
      · have hl := (hloose f (Finset.mem_of_mem_erase hf) hfp hfb).update (q := ptr (ptr p))
          (n := size b + size (ptr p)) hfb
        rwa [hptr, ← hsize] at hl
    · rw [hsize, Function.update_self]
      omega
    · rw [hsize, Function.update_of_ne hpb]
    · intro l hl
      have hlb : l ≠ b := fun he => hl.notMem (he ▸ Finset.mem_insert_self b F)
      rw [hsize]
      exact ⟨hl.join (Finset.mem_insert_self b F) (Finset.mem_insert_of_mem hqF) hadj, Function.update_of_ne hlb _ _⟩
  · rw [if_neg hadj] at hq hsize
    rw [hq, hsize]
    refine ⟨_, hins, Finset.mem_insert_of_mem hp, Finset.mem_insert_self b F, ?_, le_rfl, rfl, fun l hl => ⟨hl, rfl⟩⟩
    intro f hf hfp
    by_cases hfb : f = b
    · rw [hfb, Loose, Function.update_of_ne hpb.symm, Function.update_self]
      exact fun _ => hadj
    · exact hloose f hf hfp hfb

/-- The two pointers that `free` sets, and the sizes of the blocks that it joins. -/
theorem Ring.free (h : Ring L brk ptr size F) (hp : p ∈ F) (hbt : Between p b (ptr p))
    (hin : InHeap L brk size b) (hap : ∀ f, f ∈ F → Apart size f b) {q : Nat} {size₁ : Nat → Nat}
    (hq : q = if after size b = ptr p then ptr (ptr p) else ptr p)
    (hsize : size₁ = if after size b = ptr p then Function.update size b (size b + size (ptr p)) else size) :
    ∃ F', Freed L brk size F p b
      (Function.update (Function.update ptr b q) p (if after size₁ p = b then q else b))
      (if after size₁ p = b then Function.update size₁ p (size₁ p + size₁ b) else size₁) F' := by
  obtain ⟨F₁, hblocks, hpF, hbF, hloose, hle, hsp, hclear⟩ := h.free_right hp hbt hin hap hq hsize
  have hb := h.notMem hin hap
  have hpb : p ≠ b := fun he => hb (he ▸ hp)
  have hp₁ : (Function.update (Function.update ptr b q) p b) p = b := Function.update_self ..
  have hb₁ : (Function.update (Function.update ptr b q) p b) b = q := by
    rw [Function.update_of_ne hpb.symm, Function.update_self]
  by_cases hadj : after size₁ p = b
  · rw [if_pos hadj, if_pos hadj]
    have hlt : p < b := by
      have hsize : after size₁ p = p + 16 * size₁ p := rfl
      omega
    have hjoin := hblocks.join hpF (by rw [hp₁]; exact hlt) (by rw [hp₁]; exact hadj)
    have hjoined := hblocks.join_loose hpF (by rw [hp₁]; exact hadj)
      (by rw [hp₁]; exact hloose b hbF hpb.symm)
    rw [hp₁, hb₁, Function.update_idem] at hjoin hjoined
    refine ⟨F₁.erase b, ⟨⟨hjoin, fun f hf => ?_⟩, Finset.mem_erase.mpr ⟨hpb, hpF⟩, ⟨p, ?_, ?_⟩, fun l hl => ?_⟩⟩
    · by_cases hfp : f = p
      · rw [hfp]
        exact hjoined
      · have hl := (hloose f (Finset.mem_of_mem_erase hf) hfp).update (q := q) (n := size₁ p + size₁ b) hfp
        rwa [Function.update_idem] at hl
    · exact Finset.mem_erase.mpr ⟨hpb, hpF⟩
    · rw [Function.update_self]
      omega
    · obtain ⟨hcl, hsl⟩ := hclear l hl
      have hlp : l ≠ p := fun he => hcl.notMem (he ▸ hpF)
      exact ⟨hcl.join hpF hbF hadj, by rw [Function.update_of_ne hlp, hsl]⟩
  · rw [if_neg hadj, if_neg hadj]
    refine ⟨F₁, ⟨hblocks, fun f hf => ?_⟩, hpF, ⟨b, hbF, hle⟩, hclear⟩
    by_cases hfp : f = p
    · rw [hfp, Loose, hp₁]
      exact fun _ => hadj
    · exact hloose f hf hfp

/-- What `malloc` makes of the list: block `b` of `n` units is no longer in it. -/
structure Taken (L : Layout) (brk : Nat) (size : Nat → Nat) (F : Finset Nat) (prevp b n : Nat)
    (ptr' size' : Nat → Nat) (F' : Finset Nat) : Prop where
  ring : Ring L brk ptr' size' F'
  mem : prevp ∈ F'
  inHeap : InHeap L brk size' b
  own : Clear size' F' b
  units : size' b = n
  clear : ∀ l, Clear size F l → Clear size' F' l ∧ size' l = size l ∧ Apart size' b l

/-- A free block of the right size is taken out of the list. -/
theorem Ring.take (h : Ring L brk ptr size F) (hp : prevp ∈ F) (hbase : ptr prevp ≠ L.base) :
    Taken L brk size F prevp (ptr prevp) (size (ptr prevp))
      (Function.update ptr prevp (ptr (ptr prevp))) size (F.erase (ptr prevp)) := by
  have hf := (h.ring prevp hp).1
  have hin := h.inside _ hf hbase
  have hne : ptr prevp ≠ prevp := by
    intro he
    have hwrap := h.ring.wrap hp he.le h.base
    rw [he] at hwrap hbase
    exact hbase (le_antisymm hwrap.2 hwrap.1)
  refine ⟨⟨h.remove hp hbase hne, fun f hfe => ?_⟩, Finset.mem_erase.mpr ⟨hne.symm, hp⟩, hin,
    ⟨hin.pos, Finset.notMem_erase _ _, fun f hfe => ?_⟩, rfl, fun l hl => ⟨⟨hl.pos, ?_, ?_⟩, rfl, hl.apart _ hf⟩⟩
  · by_cases hfp : f = prevp
    · rw [hfp, Loose, Function.update_self]
      intro hlt hend
      by_cases hup : ptr prevp < ptr (ptr prevp)
      · rcases lt_or_gt_of_ne hne with hlow | hhigh
        · exact hbase (le_antisymm (h.ring.wrap hp hlow.le h.base).2 (h.base_le hf))
        · have hle := h.apart _ _ hp hf hhigh
          omega
      · exact absurd hlt (not_lt_of_ge (h.ring.wrap hf (le_of_not_gt hup) hp).2)
    · rw [Loose, Function.update_of_ne hfp]
      exact h.loose f (Finset.mem_of_mem_erase hfe)
  · have hfF := Finset.mem_of_mem_erase hfe
    rcases lt_or_gt_of_ne (Finset.ne_of_mem_erase hfe) with hlt | hgt
    · exact .inl (h.apart _ _ hfF hf hlt)
    · exact .inr (h.apart _ _ hf hfF hgt)
  · exact fun hmem => hl.notMem (Finset.mem_of_mem_erase hmem)
  · exact fun f hfe => hl.apart f (Finset.mem_of_mem_erase hfe)

/-- The end of a free block that is too large is taken. -/
theorem Ring.split (h : Ring L brk ptr size F) (hp : prevp ∈ F) (hf : f ∈ F) (hpos : 0 < n) (hn : n < size f)
    {b : Nat} (hb : b = f + 16 * (size f - n)) :
    Taken L brk size F prevp b n ptr (Function.update (Function.update size f (size f - n)) b n) F := by
  have hfbase : f ≠ L.base := by
    intro he
    rw [he, h.flat] at hn
    omega
  have hin := h.inside f hf hfbase
  have hfin := hin.brk
  have hstart := hin.start
  have hbelow := L.below
  rw [after] at hfin
  have hbF : b ∉ F := by
    intro hmem
    have hle := h.apart f b hf hmem (by omega)
    rw [after] at hle
    omega
  have hfb : f ≠ b := fun he => hbF (he ▸ hf)
  obtain ⟨size₁, hsize₁⟩ : ∃ s, s = Function.update size f (size f - n) := ⟨_, rfl⟩
  have hshrunk : Blocks L brk ptr size₁ F := by
    rw [hsize₁]
    exact h.toBlocks.shrink hfbase (by omega) (Nat.sub_le _ _)
  rw [← hsize₁]
  have hsame {g : Nat} (hg : g ≠ b) : after (Function.update size₁ b n) g = after size₁ g := after_update_ne hg
  have hne {g : Nat} (hg : g ∈ F) : g ≠ b := fun he => hbF (he ▸ hg)
  have hend : after size₁ f = b := by rw [hsize₁, after_update_self, hb]
  have hbend : after (Function.update size₁ b n) b = after size f := by
    rw [after_update_self, after]
    omega
  refine ⟨⟨⟨h.base, h.ring, ?_, ?_, ?_⟩, ?_⟩, hp, ⟨by omega, ?_, ?_⟩, ⟨?_, hbF, ?_⟩, Function.update_self .., ?_⟩
  · rw [Function.update_of_ne (hne h.base), hshrunk.flat]
  · exact fun g hg hgb => (hshrunk.inside g hg hgb).update_ne (hne hg)
  · intro x g hx hg hlt
    rw [hsame (hne hx)]
    exact hshrunk.apart x g hx hg hlt
  · intro g hg hup
    rw [hsame (hne hg)]
    by_cases hgf : g = f
    · rw [hgf] at hup ⊢
      have hle := h.apart f _ hf (h.ring f hf).1 hup
      rw [hend]
      rw [after] at hle
      omega
    · rw [hsize₁, after_update_ne hgf]
      exact h.loose g hg hup
  · rw [Function.update_self]
    exact hpos
  · rw [hbend, after]
    exact hfin
  · rw [Function.update_self]
    exact hpos
  · intro g hg
    rw [Apart, hsame (hne hg), hbend]
    by_cases hgf : g = f
    · rw [hgf, hend]
      exact .inl le_rfl
    · rcases lt_or_gt_of_ne hgf with hlt | hgt
      · have hle := hshrunk.apart g f hg hf hlt
        omega
      · exact .inr (h.apart f g hf hg hgt)
  · intro l hl
    have hlf : l ≠ f := fun he => hl.notMem (he ▸ hf)
    have hapart := hl.apart f hf
    have hlpos := hl.pos
    have hlb : l ≠ b := by
      rintro rfl
      rw [Apart, after, after] at hapart
      omega
    have hsl : Function.update size₁ b n l = size l := by
      rw [Function.update_of_ne hlb, hsize₁, Function.update_of_ne hlf]
    have hal : after (Function.update size₁ b n) l = after size l := by rw [after, hsl, after]
    refine ⟨⟨by rw [hsl]; exact hlpos, hl.notMem, fun g hg => ?_⟩, hsl, ?_⟩
    · rw [Apart, hal, hsame (hne hg)]
      by_cases hgf : g = f
      · rw [hgf, hend]
        rw [hgf, Apart] at *
        simp only [after] at *
        omega
      · rw [hsize₁, after_update_ne hgf]
        exact hl.apart g hg
    · rw [Apart, hbend, hal]
      rw [Apart] at hapart
      simp only [after] at *
      omega

end PbsCow.Umalloc

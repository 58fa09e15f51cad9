import PbsCow.Lib.Hoare
import PbsCow.Riscv
import Mathlib.Data.List.Nodup

namespace PbsCow
set_option autoImplicit true

/-- The calls to `panic` in the memory and process code. -/
inductive Panic where
  | kfree | decreasePgreference | increasePgreference
  | walk | mappagesSize | mappagesRemap | kvmmap
  | uvmunmapNotAligned | uvmunmapWalk | uvmunmapNotMapped | uvmunmapNotALeaf
  | uvmfirstMoreThanAPage | uvmcopyPteShouldExist | uvmcopyPageNotPresent | uvmclear
  | freewalkLeaf | loadsegAddressShouldExist
  | kalloc | virtioDiskKalloc | initExiting | zombieExit
  | nullPointer | outOfFuel
deriving DecidableEq, Repr

def Panic.text : Panic → String
  | .kfree => "kfree"
  | .decreasePgreference => "decrease_pgreference"
  | .increasePgreference => "increase_pgreference"
  | .walk => "walk"
  | .mappagesSize => "mappages: size"
  | .mappagesRemap => "mappages: remap"
  | .kvmmap => "kvmmap"
  | .uvmunmapNotAligned => "uvmunmap: not aligned"
  | .uvmunmapWalk => "uvmunmap: walk"
  | .uvmunmapNotMapped => "uvmunmap: not mapped"
  | .uvmunmapNotALeaf => "uvmunmap: not a leaf"
  | .uvmfirstMoreThanAPage => "uvmfirst: more than a page"
  | .uvmcopyPteShouldExist => "uvmcopy: pte should exist"
  | .uvmcopyPageNotPresent => "uvmcopy: page not present"
  | .uvmclear => "uvmclear"
  | .freewalkLeaf => "freewalk: leaf"
  | .loadsegAddressShouldExist => "loadseg: address should exist"
  | .kalloc => "kalloc"
  | .virtioDiskKalloc => "virtio disk kalloc"
  | .initExiting => "init exiting"
  | .zombieExit => "zombie exit"
  -- a fault in the kernel, and the recursion bound of the model: not calls in these files
  | .nullPointer => "kerneltrap"
  | .outOfFuel => ""

/-- Where kernel.ld puts the symbols `trampoline` and `end`; the image leaves some RAM free. -/
structure Layout where
  trampoline : Nat
  kend : Nat
  kernbase_le : KERNBASE ≤ trampoline
  trampoline_aligned : trampoline % PGSIZE = 0
  etext_le : trampoline + PGSIZE ≤ kend
  room : kend + 1024 * PGSIZE ≤ PHYSTOP

/-- The linker script checks that the trampoline fills exactly one page. -/
def Layout.etext (L : Layout) : Nat := L.trampoline + PGSIZE

theorem Layout.kend_le (L : Layout) : L.kend ≤ PHYSTOP := Nat.le_of_add_right_le L.room

def Layout.firstPage (L : Layout) : Nat := PGROUNDUP L.kend / PGSIZE

/-- The pages in `[PGROUNDUP(end), PHYSTOP)`. -/
def Layout.Managed (L : Layout) (x : Nat) : Prop := L.firstPage ≤ x ∧ x < PHYSTOP / PGSIZE

/-- Physical memory by page number, `kmem.freelist` (0 is null), and `page_ref.count`. -/
structure Mem where
  ram : Nat → Page
  freelist : Nat
  count : Nat → Int

abbrev Kern := StateT Mem (Except Panic)

def Mem.load (s : Mem) (pa : Nat) : Word := s.ram (pa / PGSIZE) (pa % PGSIZE / 8)

def Mem.setPage (s : Mem) (x : Nat) (p : Page) : Mem :=
  { s with ram := Function.update s.ram x p }

def Mem.setCount (s : Mem) (x : Nat) (n : Int) : Mem :=
  { s with count := Function.update s.count x n }

def Mem.store (s : Mem) (pa : Nat) (w : Word) : Mem :=
  s.setPage (pa / PGSIZE) (Function.update (s.ram (pa / PGSIZE)) (pa % PGSIZE / 8) w)

def loadWord (pa : Nat) : Kern Word := do return (← get).load pa

def storeWord (pa : Nat) (w : Word) : Kern Unit := modify fun s => s.store pa w

def repeatByte (c : Byte) : Word := (c ++ c ++ c ++ c ++ c ++ c ++ c ++ c).setWidth 64

/-- `memset(pa, c, PGSIZE)` on a whole page. -/
def memset (pa : Nat) (c : Byte) : Kern Unit :=
  modify fun s => s.setPage (pa / PGSIZE) fun _ => repeatByte c

/-- `memmove(dst, src, PGSIZE)` between two whole pages. -/
def memmovePage (dst src : Nat) : Kern Unit :=
  modify fun s => s.setPage (dst / PGSIZE) (s.ram (src / PGSIZE))

def decreasePgreference (pa : Nat) : Kern Bool := do
  if (← get).count (pa / PGSIZE) ≤ 0 then throw .decreasePgreference
  modify fun s => s.setCount (pa / PGSIZE) (s.count (pa / PGSIZE) - 1)
  if (← get).count (pa / PGSIZE) > 0 then return false
  return true

def increasePgreference (pa : Nat) : Kern Unit := do
  if (← get).count (pa / PGSIZE) < 0 then throw .increasePgreference
  modify fun s => s.setCount (pa / PGSIZE) (s.count (pa / PGSIZE) + 1)

def kfree (L : Layout) (pa : Nat) : Kern Unit := do
  if pa % PGSIZE ≠ 0 ∨ pa < L.kend ∨ PHYSTOP ≤ pa then throw .kfree
  if !(← decreasePgreference pa) then return ()
  memset pa 1
  -- the page itself holds the link `r->next`
  storeWord pa (BitVec.ofNat 64 (← get).freelist)
  modify fun s => { s with freelist := pa }

def kalloc : Kern Nat := do
  let r := (← get).freelist
  if r ≠ 0 then
    modify fun s => { s with freelist := (s.load r).toNat }
    memset r 5
    increasePgreference r
  return r

def freerangeLoop (L : Layout) : Nat → Nat → Kern Unit
  | 0, _ => return ()
  | n + 1, p => do
    increasePgreference p
    kfree L p
    freerangeLoop L n (p + PGSIZE)

/-- The loop runs while a whole page is left below `paEnd`. -/
def freerange (L : Layout) (paStart paEnd : Nat) : Kern Unit :=
  freerangeLoop L ((paEnd - PGROUNDUP paStart) / PGSIZE) (PGROUNDUP paStart)

def kinit (L : Layout) : Kern Unit := do
  modify fun s => { s with count := fun _ => 0 }
  freerange L L.kend PHYSTOP

theorem page_div (x : Nat) : x * PGSIZE / PGSIZE = x := Nat.mul_div_cancel x (by decide)

theorem page_mod (x : Nat) : x * PGSIZE % PGSIZE = 0 := Nat.mul_mod_left x PGSIZE

theorem slot_div (x : Nat) (hi : i < 512) : (x * PGSIZE + 8 * i) / PGSIZE = x := by
  simp only [PGSIZE]
  omega

theorem slot_mod (x : Nat) (hi : i < 512) : (x * PGSIZE + 8 * i) % PGSIZE / 8 = i := by
  simp only [PGSIZE]
  omega

theorem Layout.Managed.lt {L : Layout} (h : L.Managed x) : x < 557056 := by
  have hx := h.2
  rwa [PHYSTOP_eq, page_div] at hx

theorem Layout.Managed.lt44 {L : Layout} (h : L.Managed x) : x < 2 ^ 44 := by
  have hx := h.lt
  omega

theorem Layout.Managed.kend_le {L : Layout} (h : L.Managed x) : L.kend ≤ x * PGSIZE := by
  have hk : L.kend + PGSIZE ≤ 2 ^ 64 :=
    Nat.le_trans (Nat.add_le_add_right L.kend_le PGSIZE) (by decide)
  have hx := h.1
  rw [Layout.firstPage, PGROUNDUP_eq hk, page_div] at hx
  simp only [PGSIZE] at hx ⊢
  omega

theorem Layout.Managed.lt_phystop {L : Layout} (h : L.Managed x) : x * PGSIZE < PHYSTOP := by
  rw [PHYSTOP_eq]
  exact Nat.mul_lt_mul_of_pos_right h.lt (by decide)

theorem Layout.Managed.pos {L : Layout} (h : L.Managed x) : 0 < x * PGSIZE := by
  have hk := h.kend_le
  have h1 := L.kernbase_le
  have h2 := L.etext_le
  simp only [KERNBASE] at *
  omega

/-- The trampoline page lies in the kernel image, below the pages handed out by `kalloc`. -/
theorem Layout.trampoline_not_managed (L : Layout) : ¬ L.Managed (L.trampoline / PGSIZE) := by
  intro h
  have hk := h.kend_le
  have h1 := L.trampoline_aligned
  have h2 := L.etext_le
  simp only [PGSIZE] at *
  omega

/-- The pages threaded from address `p` on through the first word of each page. -/
def Chain (ram : Nat → Page) : Nat → List Nat → Prop
  | p, [] => p = 0
  | p, x :: l => p = x * PGSIZE ∧ Chain ram (ram x 0).toNat l

theorem Chain.congr (h : Chain ram p l) (hr : ∀ x ∈ l, ram' x 0 = ram x 0) : Chain ram' p l := by
  induction l generalizing p with
  | nil => exact h
  | cons x l ih =>
    refine ⟨h.1, ?_⟩
    rw [hr x (by simp)]
    exact ih h.2 fun y hy => hr y (by simp [hy])

/-- `kmem.freelist` is the list `free`, and its pages have reference count zero. -/
structure FreeRep (L : Layout) (s : Mem) (free : List Nat) : Prop where
  chain : Chain s.ram s.freelist free
  nodup : free.Nodup
  managed : ∀ x ∈ free, L.Managed x
  zero : ∀ x ∈ free, s.count x = 0

theorem FreeRep.congr (h : FreeRep L s free) (hl : s'.freelist = s.freelist)
    (hr : ∀ x ∈ free, s'.ram x = s.ram x) (hc : ∀ x ∈ free, s'.count x = s.count x) :
    FreeRep L s' free := by
  refine ⟨?_, h.nodup, h.managed, fun x hx => (hc x hx).trans (h.zero x hx)⟩
  rw [hl]
  exact h.chain.congr fun x hx => by rw [hr x hx]

theorem FreeRep.setPage (h : FreeRep L s free) (hx : x ∉ free) : FreeRep L (s.setPage x p) free :=
  h.congr rfl (fun _ hy => Function.update_of_ne (ne_of_mem_of_not_mem hy hx) _ _) fun _ _ => rfl

theorem FreeRep.setCount (h : FreeRep L s free) (hx : x ∉ free) :
    FreeRep L (s.setCount x n) free :=
  h.congr rfl (fun _ _ => rfl) fun _ hy => Function.update_of_ne (ne_of_mem_of_not_mem hy hx) _ _

/-- The memory after `kalloc` has taken page `x` from the front of the list. -/
def Mem.alloc (s : Mem) (x : Nat) : Mem where
  ram := Function.update s.ram x fun _ => repeatByte 5
  freelist := (s.ram x 0).toNat
  count := Function.update s.count x 1

/-- The memory after the last reference to page `x` has been given up. -/
def Mem.release (s : Mem) (x : Nat) : Mem where
  ram := Function.update s.ram x
    (Function.update (fun _ => repeatByte 1) 0 (BitVec.ofNat 64 s.freelist))
  freelist := x * PGSIZE
  count := Function.update s.count x 0

/-- The memory after one reference to page `x` has been given up. -/
def Mem.drop (s : Mem) (x : Nat) : Mem :=
  if s.count x = 1 then s.release x else s.setCount x (s.count x - 1)

theorem kalloc_nil (h : FreeRep L s []) : kalloc s = .ok (0, s) := by
  have hf : s.freelist = 0 := h.chain
  simp only [kalloc, bind, StateT.bind, get, getThe, MonadStateOf.get, StateT.get, pure,
    Except.pure, Except.bind, hf]
  rfl

theorem kalloc_cons (h : FreeRep L s (x :: free)) : kalloc s = .ok (x * PGSIZE, s.alloc x) := by
  have hf : s.freelist = x * PGSIZE := h.chain.1
  have hm := h.managed x (by simp)
  have hz : s.count x = 0 := h.zero x (by simp)
  have hne : x * PGSIZE ≠ 0 := Nat.ne_of_gt hm.pos
  have hw : Wp kalloc NoError (fun r t => r = x * PGSIZE ∧ t = s.alloc x) s := by
    simp [kalloc, increasePgreference, memset, wp_ite, hf, hne, Mem.setPage, Mem.setCount,
      Mem.load, Mem.alloc, page_div, hz]
  obtain ⟨r, t, he, rfl, rfl⟩ := hw.exists_ok
  exact he

theorem FreeRep.alloc (h : FreeRep L s (x :: free)) : FreeRep L (s.alloc x) free := by
  have hn := (List.nodup_cons.1 h.nodup).1
  have hne {y : Nat} (hy : y ∈ free) : y ≠ x := fun e => hn (e ▸ hy)
  refine ⟨?_, (List.nodup_cons.1 h.nodup).2, fun y hy => h.managed y (by simp [hy]), ?_⟩
  · exact h.chain.2.congr fun y hy => by simp [Mem.alloc, hne hy]
  · intro y hy
    have hu : (s.alloc x).count y = s.count y := Function.update_of_ne (hne hy) _ _
    rw [hu]
    exact h.zero y (by simp [hy])

theorem kfree_eq {L : Layout} (hm : L.Managed x) (hc : 1 ≤ s.count x) :
    kfree L (x * PGSIZE) s = .ok ((), s.drop x) := by
  have h1 := hm.kend_le
  have h2 := hm.lt_phystop
  have hw : Wp (kfree L (x * PGSIZE)) NoError (fun _ t => t = s.drop x) s := by
    rw [kfree]
    have h3 : ¬ s.count x ≤ 0 := by omega
    simp only [wp_bind, wp_ite, wp_throw, page_mod, Nat.not_lt_of_ge h1, Nat.not_le_of_gt h2,
      decreasePgreference, wp_get, wp_modify, wp_pure, page_div, h3]
    by_cases h4 : s.count x = 1
    · simp [memset, storeWord, page_div, h4, Mem.setPage, Mem.setCount, Mem.store,
        Mem.drop, Mem.release]
    · have h5 : ¬ s.count x ≤ 1 := by omega
      simp [h4, h5, Mem.setCount, Mem.drop]
  obtain ⟨_, t, he, rfl⟩ := hw.exists_ok
  exact he

theorem FreeRep.release (h : FreeRep L s free) (hm : L.Managed x) (hx : x ∉ free) :
    FreeRep L (s.release x) (x :: free) := by
  have hne {y : Nat} (hy : y ∈ free) : y ≠ x := fun e => hx (e ▸ hy)
  refine ⟨⟨rfl, ?_⟩, List.nodup_cons.2 ⟨hx, h.nodup⟩, ?_, ?_⟩
  · have hl : s.freelist < 2 ^ 64 := by
      have hc := h.chain
      cases free with
      | nil =>
        rw [show s.freelist = 0 from hc]
        exact Nat.two_pow_pos 64
      | cons y l =>
        have hy := (h.managed y (by simp)).lt
        rw [hc.1]
        simp only [PGSIZE]
        omega
    have he : ((s.release x).ram x 0).toNat = s.freelist := by
      simp only [Mem.release, Function.update_self, BitVec.toNat_ofNat, Nat.mod_eq_of_lt hl]
    rw [he]
    exact h.chain.congr fun y hy => by simp [Mem.release, hne hy]
  · intro y hy
    rcases List.mem_cons.1 hy with rfl | hy
    · exact hm
    · exact h.managed y hy
  · intro y hy
    rcases List.mem_cons.1 hy with rfl | hy
    · exact Function.update_self _ _ _
    · have hu : (s.release x).count y = s.count y := Function.update_of_ne (hne hy) _ _
      rw [hu]
      exact h.zero y hy

theorem increasePgreference_eq (hc : 0 ≤ s.count x) :
    increasePgreference (x * PGSIZE) s = .ok ((), s.setCount x (s.count x + 1)) := by
  have hn : ¬ s.count x < 0 := by omega
  have hw : Wp (increasePgreference (x * PGSIZE)) NoError
      (fun _ t => t = s.setCount x (s.count x + 1)) s := by
    simp [increasePgreference, wp_ite, page_div, hn]
  obtain ⟨_, t, he, rfl⟩ := hw.exists_ok
  exact he

theorem freerangeLoop_spec (h : FreeRep L s free) (hz : ∀ y, s.count y = 0)
    (hx : L.firstPage ≤ x) (hn : x + n ≤ PHYSTOP / PGSIZE) (hlt : ∀ y ∈ free, y < x) :
    Wp (freerangeLoop L n (x * PGSIZE)) NoError (fun _ s' => ∃ free', FreeRep L s' free' ∧
      (∀ y, s'.count y = 0) ∧ (∀ y, y ∈ free' ↔ y ∈ free ∨ x ≤ y ∧ y < x + n) ∧
      free'.length = free.length + n) s := by
  induction n generalizing s x free with
  | zero =>
    refine wp_pure.2 ⟨free, h, hz, fun y => ?_, rfl⟩
    constructor
    · exact .inl
    · rintro (hy | hy)
      · exact hy
      · omega
  | succ n ih =>
    have hm : L.Managed x := ⟨hx, by omega⟩
    have hxf : x ∉ free := fun hx => Nat.lt_irrefl x (hlt x hx)
    have hc : (s.setCount x (s.count x + 1)).count x = 1 := by simp [Mem.setCount, hz]
    have hd : (s.setCount x (s.count x + 1)).drop x = (s.setCount x (s.count x + 1)).release x :=
      if_pos hc
    have hi := increasePgreference_eq (s := s) (x := x) (Int.le_of_eq (hz x).symm)
    have hk := kfree_eq (s := s.setCount x (s.count x + 1)) hm (by omega)
    rw [hd] at hk
    refine .bind_ok hi (.bind_ok hk ?_)
    have hr := (h.setCount hxf (n := s.count x + 1)).release hm hxf
    have hz' (y : Nat) : ((s.setCount x (s.count x + 1)).release x).count y = 0 := by
      by_cases hy : y = x
      · simp [hy, Mem.release]
      · simp [hy, Mem.release, Mem.setCount, hz]
    have hs : x * PGSIZE + PGSIZE = (x + 1) * PGSIZE := (Nat.succ_mul x PGSIZE).symm
    rw [hs]
    refine (ih hr hz' (by omega) (by omega) ?_).mono ?_
    · intro y hy
      rcases List.mem_cons.1 hy with rfl | hy
      · exact Nat.lt_succ_self _
      · exact Nat.lt_succ_of_lt (hlt y hy)
    · rintro _ t ⟨free', hf, hc', hmem, hlen⟩
      refine ⟨free', hf, hc', fun y => ?_, ?_⟩
      · rw [hmem y, List.mem_cons]
        have hor : y = x ∨ x + 1 ≤ y ∧ y < x + 1 + n ↔ x ≤ y ∧ y < x + (n + 1) := by omega
        rw [← hor]
        tauto
      · rw [hlen, List.length_cons]
        omega

/-- After `kinit` every managed page is free and no page is referenced. -/
theorem kinit_spec (hs : s.freelist = 0) :
    Wp (kinit L) NoError (fun _ s' => ∃ free, FreeRep L s' free ∧ (∀ y, s'.count y = 0) ∧
      (∀ y, y ∈ free ↔ L.Managed y) ∧ free.length = PHYSTOP / PGSIZE - L.firstPage) s := by
  have hk : L.kend + PGSIZE ≤ 2 ^ 64 :=
    Nat.le_trans (Nat.add_le_add_right L.kend_le PGSIZE) (by decide)
  have hup : PGROUNDUP L.kend = L.firstPage * PGSIZE := by
    rw [Layout.firstPage, PGROUNDUP_eq hk, page_div]
  have hle : L.firstPage ≤ PHYSTOP / PGSIZE := by
    have hle := L.kend_le
    rw [PHYSTOP_eq] at hle ⊢
    rw [page_div, Layout.firstPage, PGROUNDUP_eq hk, page_div]
    simp only [PGSIZE] at hle ⊢
    omega
  have hn : (PHYSTOP - L.firstPage * PGSIZE) / PGSIZE = PHYSTOP / PGSIZE - L.firstPage := by
    rw [PHYSTOP_eq, page_div, ← Nat.sub_mul, page_div]
  have h0 : FreeRep L { s with count := fun _ => 0 } [] := ⟨hs, .nil, by simp, by simp⟩
  simp only [kinit, freerange, wp_bind, wp_modify, hup, hn]
  refine (freerangeLoop_spec h0 (fun _ => rfl) (Nat.le_refl _) (by omega) (by simp)).mono ?_
  rintro _ t ⟨free, hf, hz, hmem, hlen⟩
  refine ⟨free, hf, hz, fun y => ?_, by simpa using hlen⟩
  rw [hmem y, Layout.Managed]
  simp only [List.not_mem_nil, false_or]
  omega

end PbsCow

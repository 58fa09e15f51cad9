import PbsCow.Vm
import Mathlib.Order.Basic

namespace PbsCow
set_option autoImplicit true

/-- The kernel data that owns a page outright. -/
inductive Holder where
  | trapframe (slot : Nat)
  | kstack (slot : Nat)
  | ring (i : Nat)
  | pipe
  | argbuf
  | fresh
deriving DecidableEq

/-- What a physical page is used for. A page-table page is known by the page number of its root,
its level and the part of the virtual page number above that level. -/
inductive Owner where
  | outside
  | free
  | table (root level pre : Nat)
  | user
  | held (h : Holder)
deriving DecidableEq

/-- The abstract view of memory: the owner of every page, the free list, and for every root and
virtual page number the leaf PTE, 0 where there is none. -/
structure Ghost where
  own : Nat → Owner
  free : List Nat
  pt : Nat → Nat → Word

structure PageRep (L : Layout) (s : Mem) (g : Ghost) : Prop where
  freeRep : FreeRep L s g.free
  mem_free : ∀ x, x ∈ g.free ↔ g.own x = .free
  managed : ∀ x, g.own x ≠ .outside ↔ L.Managed x
  count_table : ∀ x r l p, g.own x = .table r l p → s.count x = 1
  count_held : ∀ x h, g.own x = .held h → s.count x = 1
  count_user : ∀ x, g.own x = .user → 1 ≤ s.count x

/-- An entry of an inner page-table page is 0, or points to the page-table page below it. -/
def Link (g : Ghost) (e : Word) (r l p : Nat) : Prop :=
  (∃ q, g.own q = .table r l p ∧ e = mkPte q PTE_V) ∨ ((∀ q, g.own q ≠ .table r l p) ∧ e = 0)

structure TableRep (ram : Nat → Page) (g : Ghost) : Prop where
  unique : ∀ {x y r l p}, g.own x = .table r l p → g.own y = .table r l p → x = y
  level : ∀ {x r l p}, g.own x = .table r l p → l ≤ 2
  root : ∀ {x r p}, g.own x = .table r 2 p → x = r ∧ p = 0
  parent : ∀ {x r l p}, g.own x = .table r l p → l < 2 → ∃ y, g.own y = .table r (l + 1) (p / 512)
  link : ∀ {x r l p i}, g.own x = .table r (l + 1) p → i < 512 → Link g (ram x i) r l (p * 512 + i)
  leaf : ∀ {x r p i}, g.own x = .table r 0 p → i < 512 → ram x i = g.pt r (p * 512 + i)
  none : ∀ {r v}, (∀ x, g.own x ≠ .table r 0 (v / 512)) → g.pt r v = 0

/-- The memory `s` realises the abstract view `g`. -/
structure Rep (L : Layout) (s : Mem) (g : Ghost) : Prop where
  page : PageRep L s g
  table : TableRep s.ram g

theorem PageRep.lt44 (h : PageRep L s g) (hx : g.own x ≠ .outside) : x < 2 ^ 44 :=
  ((h.managed x).1 hx).lt44

theorem PageRep.pos (h : PageRep L s g) (hx : g.own x ≠ .outside) : 0 < x * PGSIZE :=
  ((h.managed x).1 hx).pos

theorem PageRep.congr_ram (h : PageRep L s g) (hl : s'.freelist = s.freelist)
    (hc : s'.count = s.count) (hr : ∀ x, g.own x = .free → s'.ram x = s.ram x) :
    PageRep L s' g := by
  obtain ⟨hf, hm, hg, ht, hh, hu⟩ := h
  refine ⟨hf.congr hl (fun x hx => hr x ((hm x).1 hx)) fun x _ => by rw [hc], hm, hg, ?_, ?_, ?_⟩
  · simpa only [hc] using ht
  · simpa only [hc] using hh
  · simpa only [hc] using hu

theorem PageRep.setPage (h : PageRep L s g) (hx : g.own x ≠ .free) : PageRep L (s.setPage x p) g :=
  h.congr_ram rfl rfl fun _ hy => Function.update_of_ne (by rintro rfl; exact hx hy) _ _

/-- Giving page `x` the owner `o`, with everything said about the other pages kept. -/
theorem PageRep.update (h : PageRep L s g) (hm : L.Managed x) (hf : FreeRep L s' f)
    (hmem : ∀ y, y ≠ x → (y ∈ f ↔ y ∈ g.free)) (hx : x ∈ f ↔ o = .free) (ho : o ≠ .outside)
    (hc : ∀ y, y ≠ x → s'.count y = s.count y) (hpos : o ≠ .free → 1 ≤ s'.count x)
    (hone : o ≠ .user → o ≠ .free → s'.count x = 1) :
    PageRep L s' { g with own := Function.update g.own x o, free := f } := by
  have hself : Function.update g.own x o x = o := Function.update_self _ _ _
  have hother {y : Nat} (hy : y ≠ x) : Function.update g.own x o y = g.own y :=
    Function.update_of_ne hy _ _
  refine ⟨hf, fun y => ?_, fun y => ?_, fun y r l p hy => ?_, fun y k hy => ?_, fun y hy => ?_⟩
  · rcases eq_or_ne y x with rfl | hyx
    · simpa only [hself] using hx
    · simpa only [hother hyx] using (hmem y hyx).trans (h.mem_free y)
  · rcases eq_or_ne y x with rfl | hyx
    · simpa only [hself, ho, ne_eq, not_false_eq_true, true_iff] using hm
    · simpa only [hother hyx] using h.managed y
  · rcases eq_or_ne y x with rfl | hyx
    · have ho := hself.symm.trans hy
      exact hone (by simp [ho]) (by simp [ho])
    · exact (hc y hyx).trans (h.count_table y r l p (hother hyx ▸ hy))
  · rcases eq_or_ne y x with rfl | hyx
    · have ho := hself.symm.trans hy
      exact hone (by simp [ho]) (by simp [ho])
    · exact (hc y hyx).trans (h.count_held y k (hother hyx ▸ hy))
  · rcases eq_or_ne y x with rfl | hyx
    · have ho := hself.symm.trans hy
      exact hpos (by simp [ho])
    · rw [hc y hyx]
      exact h.count_user y (hother hyx ▸ hy)

/-- Taking the first free page for a new owner. -/
theorem PageRep.alloc (h : PageRep L s g) (hf : g.free = x :: f) (ho : o ≠ .outside)
    (ho' : o ≠ .free) :
    PageRep L (s.alloc x) { g with own := Function.update g.own x o, free := f } := by
  have hr : FreeRep L s (x :: f) := hf ▸ h.freeRep
  have hone : (s.alloc x).count x = 1 := Function.update_self _ _ _
  have hxf : x ∉ f := (List.nodup_cons.1 hr.nodup).1
  refine h.update (hr.managed x (by simp)) hr.alloc (fun y hy => ?_) ?_ ho
    (fun y hy => Function.update_of_ne hy _ _) (fun _ => Int.le_of_eq hone.symm) fun _ _ => hone
  · simp [hf, hy]
  · simp [hxf, ho']

/-- Giving a page back to the free list. -/
theorem PageRep.release (h : PageRep L s g) (hx : g.own x ≠ .outside) (hx' : g.own x ≠ .free) :
    PageRep L (s.release x)
      { g with own := Function.update g.own x .free, free := x :: g.free } := by
  have hm := (h.managed x).1 hx
  have hxf : x ∉ g.free := fun hf => hx' ((h.mem_free x).1 hf)
  refine h.update hm (h.freeRep.release hm hxf) (fun y hy => ?_) (by simp) (by simp)
    (fun y hy => Function.update_of_ne hy _ _) (by simp) (by simp)
  simp [hy]

/-- Changing the use of a page that holds neither a page table nor a free-list link. -/
theorem PageRep.retag (h : PageRep L s g) (hx : g.own x = .held k)
    (ho : o = .user ∨ ∃ k', o = .held k') :
    PageRep L s { g with own := Function.update g.own x o } := by
  have hone := h.count_held x k hx
  have hm := (h.managed x).1 (by simp [hx])
  refine h.update hm h.freeRep (fun _ _ => .rfl) ?_ ?_ (fun _ _ => rfl) (fun _ => Int.le_of_eq hone.symm)
    fun _ _ => hone
  · rw [h.mem_free, hx]
    rcases ho with rfl | ⟨k', rfl⟩ <;> simp
  · rcases ho with rfl | ⟨k', rfl⟩ <;> simp

theorem PageRep.setCount (h : PageRep L s g) (hx : g.own x = .user) (hn : 1 ≤ n) :
    PageRep L (s.setCount x n) g := by
  have hself : (s.setCount x n).count x = n := Function.update_self _ _ _
  have hxf : x ∉ g.free := by
    rw [h.mem_free, hx]
    simp
  have hu := h.update (o := .user) ((h.managed x).1 (by simp [hx]))
    (h.freeRep.setCount hxf) (fun _ _ => .rfl) (by simp [hxf]) (by simp)
    (fun y hy => Function.update_of_ne hy _ _) (fun _ => Int.le_trans hn (Int.le_of_eq hself.symm)) (by simp)
  rwa [← hx, Function.update_eq_self] at hu

theorem TableRep.congr (h : TableRep ram g) (ho : ∀ x r l p, g'.own x = .table r l p ↔
      g.own x = .table r l p) (hp : g'.pt = g.pt)
    (hr : ∀ x r l p, g.own x = .table r l p → ram' x = ram x) : TableRep ram' g' := by
  constructor
  · intro x y r l p hx hy
    exact h.unique ((ho ..).1 hx) ((ho ..).1 hy)
  · intro x r l p hx
    exact h.level ((ho ..).1 hx)
  · intro x r p hx
    exact h.root ((ho ..).1 hx)
  · intro x r l p hx hl
    obtain ⟨y, hy⟩ := h.parent ((ho ..).1 hx) hl
    exact ⟨y, (ho ..).2 hy⟩
  · intro x r l p i hx hi
    rw [hr x _ _ _ ((ho ..).1 hx)]
    rcases h.link ((ho ..).1 hx) hi with ⟨q, hq, he⟩ | ⟨hq, he⟩
    · exact .inl ⟨q, (ho ..).2 hq, he⟩
    · exact .inr ⟨fun q h => hq q ((ho ..).1 h), he⟩
  · intro x r p i hx hi
    rw [hr x _ _ _ ((ho ..).1 hx), hp]
    exact h.leaf ((ho ..).1 hx) hi
  · intro r v hv
    rw [hp]
    exact h.none fun x hx => hv x ((ho ..).2 hx)

theorem TableRep.ancestor (h : TableRep ram g) (hq : g.own q = .table r 0 (v / 512)) (hl : l ≤ 2) :
    ∃ x, g.own x = .table r l (v / 512 ^ (l + 1)) := by
  induction l with
  | zero => exact ⟨q, by simpa using hq⟩
  | succ l ih =>
    obtain ⟨y, hy⟩ := ih (by omega)
    obtain ⟨z, hz⟩ := h.parent hy (by omega)
    exact ⟨z, by rw [hz, Nat.div_div_eq_div_mul, ← Nat.pow_succ]⟩

/-- A root page is the only page-table page that a free page could still be confused with. -/
theorem TableRep.no_table_of_free (h : TableRep ram g) (hx : g.own x = .free) (y l p : Nat) :
    g.own y ≠ .table x l p := by
  intro hy
  have hroot : ∀ k y l p, l + k = 2 → g.own y = .table x l p → False := by
    intro k
    induction k with
    | zero =>
      intro y l p hl hy
      have hl : l = 2 := hl
      subst hl
      have he := (h.root hy).1
      rw [he, hx] at hy
      cases hy
    | succ k ih =>
      intro y l p hl hy
      obtain ⟨z, hz⟩ := h.parent hy (by omega)
      exact ih z _ _ (by omega) hz
  have hl := h.level hy
  exact hroot (2 - l) y l p (by omega) hy

end PbsCow

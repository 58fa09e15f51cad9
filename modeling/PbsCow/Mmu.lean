import PbsCow.Copyout

namespace PbsCow
set_option autoImplicit true

/-- The leaf PTE that a page-table walk from `level` down ends at, 0 if it ends early. -/
def leafPte (s : Mem) (va : Nat) : Nat → Nat → Word
  | 0, pagetable => s.load (pagetable + 8 * PX 0 va)
  | level + 1, pagetable =>
    let e := s.load (pagetable + 8 * PX (level + 1) va)
    if flag e PTE_V then leafPte s va level (PTE2PA e) else 0

def Mem.pte (s : Mem) (pagetable va : Nat) : Word := leafPte s va 2 pagetable

/-- What the MMU finds for a user address. An Sv39 address is canonical if bits 38 to 63 agree. -/
def Mem.translate (s : Mem) (pagetable va : Nat) : Word :=
  if va < MAXVA ∨ 2 ^ 64 - MAXVA ≤ va ∧ va < 2 ^ 64 then s.pte pagetable (va % 2 ^ 39) else 0

/-- A load in user mode; `none` is a page fault. -/
def Mem.userLoad (s : Mem) (pagetable va : Nat) : Option Byte :=
  let e := s.translate pagetable va
  if flag e PTE_V && flag e PTE_U && flag e PTE_R then
    some ((s.ram (ppn e)).byte (va % PGSIZE))
  else none

/-- A store in user mode; `none` is a page fault. -/
def Mem.userStore (s : Mem) (pagetable va : Nat) (b : Byte) : Option Mem :=
  let e := s.translate pagetable va
  if flag e PTE_V && flag e PTE_U && flag e PTE_W then
    some (s.setPage (ppn e) ((s.ram (ppn e)).setByte (va % PGSIZE) b))
  else none

theorem Rep.leafPte (h : Rep L s g)
    (hx : g.own x = .table r level (va / PGSIZE / 512 ^ (level + 1))) (hl : level ≤ 2) :
    leafPte s va level (x * PGSIZE) = g.pt r (va / PGSIZE) := by
  induction level generalizing x with
  | zero =>
    have hp : PX 0 va = va / PGSIZE % 512 := by simpa using PX_eq 0 va
    rw [PbsCow.leafPte, hp]
    exact h.load_pte (by simpa using hx)
  | succ level ih =>
    rw [PbsCow.leafPte]
    rcases h.walk_link hx with ⟨q, hq, he⟩ | ⟨hq, he⟩
    · have hlt := h.page.lt44 (x := q) (by simp [hq])
      simp only [he, flag_link, if_true, PTE2PA_link hlt]
      exact ih hq (by omega)
    · simp only [he]
      refine (h.table.none fun y hy => ?_).symm
      obtain ⟨z, hz⟩ := h.table.ancestor hy (l := level) (by omega)
      exact hq z hz

theorem Rep.pte (h : Rep L s g) (hr : g.Live r) (hva : va < 2 ^ 39) :
    s.pte (r * PGSIZE) va = g.pt r (va / PGSIZE) := by
  refine h.leafPte ?_ (Nat.le_refl 2)
  have hz : va / PGSIZE / 512 ^ (2 + 1) = 0 := by
    simp only [PGSIZE]
    omega
  rw [hz]
  exact hr

theorem Rep.pte_page (h : Rep L s g) (hr : g.Live r) (hv : v < MAXV) :
    s.pte (r * PGSIZE) (v * PGSIZE) = g.pt r v := by
  rw [h.pte hr, page_div]
  simp only [MAXV, PGSIZE] at *
  omega

/-- No address outside the lower half is ever mapped for a process. -/
theorem Good.translate (h : Good L s g S) (hr : r ∈ S) (va : Nat) :
    s.translate (r * PGSIZE) va = if va < MAXVA then g.pt r (va / PGSIZE) else 0 := by
  have hl := h.space.live r hr
  have hM : MAXVA = 2 ^ 38 := by decide
  rw [Mem.translate]
  by_cases hva : va < MAXVA
  · have hmod : va % 2 ^ 39 = va := Nat.mod_eq_of_lt (by omega)
    rw [if_pos (.inl hva), if_pos hva, hmod, h.rep.pte hl (by omega)]
  · rw [if_neg hva]
    split
    · next hc =>
      have hlow : 2 ^ 38 ≤ va % 2 ^ 39 := by omega
      have hlt : va % 2 ^ 39 < 2 ^ 39 := Nat.mod_lt _ (by decide)
      rw [h.rep.pte hl hlt]
      refine h.space.high r hr _ ?_
      simp only [PGSIZE, MAXV]
      omega
    · rfl

end PbsCow

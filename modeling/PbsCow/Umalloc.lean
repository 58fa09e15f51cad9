import Mathlib.Algebra.Ring.Int.Defs
import PbsCow.FreeBlocks
import PbsCow.Lib.Runs
import PbsCow.Riscv

namespace PbsCow.Umalloc
set_option autoImplicit true

/-- The headers in the memory of the process, `freep`, and the size of the process, which is the break. -/
structure Heap where
  ptr : Nat → Nat
  size : Nat → Nat
  freep : Nat
  brk : Nat

/-- `fault`: an access to a page that the process does not have. `endless`: the loop does not end. -/
inductive Stop where
  | fault
  | endless

abbrev User := StateT Heap (Except Stop)

def touch (a : Nat) : User Unit := do
  if PGROUNDUP (← get).brk < a + 16 then throw .fault

def getPtr (a : Nat) : User Nat := do
  touch a
  return (← get).ptr a

def getSize (a : Nat) : User Nat := do
  touch a
  return (← get).size a

def setPtr (a v : Nat) : User Unit := do
  touch a
  modify fun h => { h with ptr := Function.update h.ptr a v }

/-- A size is a `uint`. -/
def setSize (a v : Nat) : User Unit := do
  touch a
  modify fun h => { h with size := Function.update h.size a (v % 2 ^ 32) }

/-- The kernel's `growproc` as far as the size: `uvmalloc` fails when there is no physical page left
for a page of the process, or no page for its page table (`room`). -/
def growproc (room : Bool) (sz : Nat) (n : Int) : Option Nat :=
  if 0 < n then
    if room ∧ sz + n ≤ (PHYSTOP - KERNBASE : Nat) then some (sz + n).toNat else none
  else if n < 0 then
    let newsz := ((sz + n) % 2 ^ 64).toNat
    some (if newsz < sz then newsz else sz)
  else some sz

def sbrk (room : Bool) (n : Int) : User (Option Nat) := do
  let addr := (← get).brk
  match growproc room addr n with
  | none => return none
  | some sz =>
    modify fun h => { h with brk := sz }
    return some addr

/-- The loop of `free` that finds the place of `bp`. -/
def freeLoop (bp : Nat) : Nat → Nat → User Nat
  | 0, _ => throw .endless
  | fuel + 1, p => do
    let next ← getPtr p
    if p < bp ∧ bp < next then return p
    if next ≤ p ∧ (p < bp ∨ bp < next) then return p
    freeLoop bp fuel next

/-- `bp` is joined to the block above it, or linked to it. -/
def joinNext (bp next : Nat) : User Unit := do
  if bp + 16 * (← getSize bp) = next then
    setSize bp ((← getSize bp) + (← getSize next))
    setPtr bp (← getPtr next)
  else
    setPtr bp next

/-- The block below, `p`, is joined to `bp`, or linked to it. -/
def joinPrev (p bp : Nat) : User Unit := do
  if p + 16 * (← getSize p) = bp then
    setSize p ((← getSize p) + (← getSize bp))
    setPtr p (← getPtr bp)
  else
    setPtr p bp

def free (fuel ap : Nat) : User Unit := do
  let bp := ap - 16
  let p ← freeLoop bp fuel (← get).freep
  joinNext bp (← getPtr p)
  joinPrev p bp
  modify fun h => { h with freep := p }

/-- What is left of a size in an `int`. -/
@[irreducible] def toInt (v : Nat) : Int := Int.bmod v (2 ^ 32)

def morecore (fuel : Nat) (room : Bool) (nu : Nat) : User (Option Nat) := do
  let nu := if nu < 4096 then 4096 else nu
  match ← sbrk room (toInt (nu * 16)) with
  | none => return none
  | some hp =>
    setSize hp nu
    free fuel (hp + 16)
    return some (← get).freep

/-- The block `p` serves the request. -/
def takeBlock (nunits prevp p : Nat) : User Nat := do
  let size ← getSize p
  if size = nunits then
    setPtr prevp (← getPtr p)
    modify fun h => { h with freep := prevp }
    return p + 16
  else
    setSize p (size - nunits)
    let p := p + 16 * (← getSize p)
    setSize p nunits
    modify fun h => { h with freep := prevp }
    return p + 16

/-- The loop of `malloc`. -/
def mallocLoop (fuel : Nat) (room : Bool) (nunits : Nat) : Nat → Nat → Nat → User Nat
  | 0, _, _ => throw .endless
  | n + 1, prevp, p => do
    if nunits ≤ (← getSize p) then takeBlock nunits prevp p
    else if p = (← get).freep then
      match ← morecore fuel room nunits with
      | none => return 0
      | some p => mallocLoop fuel room nunits n p (← getPtr p)
    else mallocLoop fuel room nunits n p (← getPtr p)

def units (nbytes : BitVec 32) : Nat := (nbytes.toNat + 16 - 1) / 16 + 1

/-- The first call makes a list of `base`. -/
def initBase (L : Layout) : User Unit := do
  if (← get).freep = 0 then
    setPtr L.base L.base
    modify fun h => { h with freep := L.base }
    setSize L.base 0

def malloc (L : Layout) (fuel : Nat) (room : Bool) (nbytes : BitVec 32) : User Nat := do
  initBase L
  let prevp := (← get).freep
  mallocLoop fuel room (units nbytes) fuel prevp (← getPtr prevp)

section

variable {h : Heap} {E : Stop → Prop}

theorem le_PGROUNDUP (hle : sz ≤ PHYSTOP - KERNBASE) : sz ≤ PGROUNDUP sz := by
  have hbig : PHYSTOP - KERNBASE + PGSIZE ≤ 2 ^ 64 := by decide
  rw [PGROUNDUP_eq (by omega)]
  simp only [PGSIZE]
  omega

theorem wp_touch {Q : Unit → Heap → Prop} (hbrk : h.brk ≤ PHYSTOP - KERNBASE) (ha : a + 16 ≤ h.brk)
    (hq : Q () h) : Wp (touch a) E Q h := by
  have hle := le_PGROUNDUP hbrk
  rw [touch, wp_bind, wp_get]
  exact .ite (fun hlt => absurd hlt (by omega)) fun _ => hq

theorem wp_getPtr {Q : Nat → Heap → Prop} (hbrk : h.brk ≤ PHYSTOP - KERNBASE) (ha : a + 16 ≤ h.brk)
    (hq : Q (h.ptr a) h) : Wp (getPtr a) E Q h := wp_bind.2 (wp_touch hbrk ha hq)

theorem wp_getSize {Q : Nat → Heap → Prop} (hbrk : h.brk ≤ PHYSTOP - KERNBASE) (ha : a + 16 ≤ h.brk)
    (hq : Q (h.size a) h) : Wp (getSize a) E Q h := wp_bind.2 (wp_touch hbrk ha hq)

theorem wp_setPtr {Q : Unit → Heap → Prop} (hbrk : h.brk ≤ PHYSTOP - KERNBASE) (ha : a + 16 ≤ h.brk)
    (hq : Q () { h with ptr := Function.update h.ptr a v }) : Wp (setPtr a v) E Q h :=
  wp_bind.2 (wp_touch hbrk ha hq)

theorem wp_setSize {Q : Unit → Heap → Prop} (hbrk : h.brk ≤ PHYSTOP - KERNBASE) (ha : a + 16 ≤ h.brk)
    (hv : v < 2 ^ 32) (hq : Q () { h with size := Function.update h.size a v }) : Wp (setSize a v) E Q h := by
  apply wp_bind.2 (wp_touch hbrk ha _)
  rw [wp_modify, Nat.mod_eq_of_lt hv]
  exact hq

end

theorem toInt_of_lt (h : v < 0x80000000) : toInt v = v := by
  unfold toInt
  apply Int.bmod_eq_of_le <;> omega

/-- The free list of a heap that fits in the physical memory. -/
structure Sound (L : Layout) (h : Heap) (F : Finset Nat) : Prop where
  start : L.start ≤ h.brk
  brk : h.brk ≤ PHYSTOP - KERNBASE
  ring : Ring L h.brk h.ptr h.size F
  freep : h.freep ∈ F

theorem Sound.header (h : Sound L s F) (hf : f ∈ F) : f + 16 ≤ s.brk := h.ring.header_le hf h.start

theorem Sound.size_le (h : Sound L s F) (hle : after s.size f ≤ s.brk) : s.size f ≤ 2 ^ 23 := by
  have hbrk := h.brk
  have hmem : PHYSTOP - KERNBASE = 2 ^ 27 := rfl
  rw [after] at hle
  omega

/-- There are not more free blocks than bytes. -/
theorem Sound.card_le (h : Sound L s F) : F.card ≤ 2 ^ 27 := by
  have hsub : F ⊆ Finset.range (2 ^ 27) := by
    intro f hf
    have hle := h.header hf
    have hbrk := h.brk
    have hmem : PHYSTOP - KERNBASE = 2 ^ 27 := rfl
    rw [Finset.mem_range]
    omega
  simpa using Finset.card_le_card hsub

theorem Sound.wp_freeLoop (h : Sound L s F) (hbt : Between f bp (s.ptr f)) (hp : p ∈ F)
    (hk : s.ptr^[k] p = f) (hfuel : k < fuel) :
    Wp (freeLoop bp fuel p) NoError (fun p t => p ∈ F ∧ Between p bp (s.ptr p) ∧ t = s) s := by
  induction k generalizing p fuel with
  | zero =>
    obtain ⟨fuel, rfl⟩ := Nat.exists_eq_succ_of_ne_zero (Nat.ne_of_gt hfuel)
    have hpf : p = f := hk
    rw [freeLoop, wp_bind]
    apply wp_getPtr h.brk (h.header hp)
    refine .ite (fun hb => ⟨hp, .inl hb, rfl⟩) fun h1 => .ite (fun hb => ⟨hp, .inr hb, rfl⟩) fun h2 => ?_
    rw [← hpf] at hbt
    exact absurd hbt (not_or.mpr ⟨h1, h2⟩)
  | succ k ih =>
    obtain ⟨fuel, rfl⟩ := Nat.exists_eq_succ_of_ne_zero (Nat.ne_of_gt (Nat.lt_of_le_of_lt (Nat.zero_le _) hfuel))
    rw [freeLoop, wp_bind]
    apply wp_getPtr h.brk (h.header hp)
    refine .ite (fun hb => ⟨hp, .inl hb, rfl⟩) fun _ => .ite (fun hb => ⟨hp, .inr hb, rfl⟩) fun _ => ?_
    exact ih (h.ring.ring p hp).1 hk (by omega)

end PbsCow.Umalloc

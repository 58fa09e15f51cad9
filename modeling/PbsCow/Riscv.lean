import PbsCow.Lib.Bytes

namespace PbsCow
set_option autoImplicit true

def PGSIZE : Nat := 4096
def MAXVA : Nat := 1 <<< (9 + 9 + 9 + 12 - 1)
def KERNBASE : Nat := 0x80000000
def PHYSTOP : Nat := KERNBASE + 128 * 1024 * 1024
def TRAMPOLINE : Nat := MAXVA - PGSIZE
def TRAPFRAME : Nat := TRAMPOLINE - PGSIZE
def KSTACK (p : Nat) : Nat := TRAMPOLINE - (p + 1) * 2 * PGSIZE
def UART0 : Nat := 0x10000000
def VIRTIO0 : Nat := 0x10001000
def PLIC : Nat := 0x0c000000
def NPROC : Nat := 64
def MAXARG : Nat := 32
def MAXPATH : Nat := 128

theorem PHYSTOP_eq : PHYSTOP = 557056 * PGSIZE := rfl

theorem MAXVA_eq : MAXVA = 67108864 * PGSIZE := rfl

/-- Addresses are `uint64`: adding `PGSIZE - 1` may wrap. -/
def PGROUNDUP (sz : Nat) : Nat := (sz + PGSIZE - 1) % 2 ^ 64 / PGSIZE * PGSIZE

theorem PGROUNDUP_eq (h : sz + PGSIZE ≤ 2 ^ 64) :
    PGROUNDUP sz = (sz + (PGSIZE - 1)) / PGSIZE * PGSIZE := by
  have hp : 0 < PGSIZE := by decide
  rw [PGROUNDUP, Nat.mod_eq_of_lt (by omega), Nat.add_sub_assoc hp]

def PGROUNDDOWN (a : Nat) : Nat := a / PGSIZE * PGSIZE

def PTE_V : Word := 1#64 <<< 0
def PTE_R : Word := 1#64 <<< 1
def PTE_W : Word := 1#64 <<< 2
def PTE_X : Word := 1#64 <<< 3
def PTE_U : Word := 1#64 <<< 4
def PTE_COW : Word := 1#64 <<< 8

/-- The C test `pte & flag`. -/
def flag (pte f : Word) : Bool := (pte &&& f) != 0#64

def PA2PTE (pa : Nat) : Word := (BitVec.ofNat 64 pa >>> 12) <<< 10
def PTE2PA (pte : Word) : Nat := ((pte >>> 10) <<< 12).toNat
def PTE_FLAGS (pte : Word) : Word := pte &&& 0x3FF#64
def PX (level va : Nat) : Nat := (va >>> (12 + 9 * level)) &&& 0x1FF

/-- The physical page number in a PTE. -/
def ppn (pte : Word) : Nat := PTE2PA pte / PGSIZE

/-- The PTE that maps physical page `x` with flags `f`. -/
def mkPte (x : Nat) (f : Word) : Word := PA2PTE (x * PGSIZE) ||| f

theorem flag_shift (pte : Word) (n : Nat) (hn : n < 64) :
    flag pte (1#64 <<< n) = pte.getLsbD n := by
  rw [flag, ← BitVec.twoPow_eq, BitVec.and_twoPow]
  cases pte.getLsbD n with
  | false => simp
  | true =>
    have h : BitVec.twoPow 64 n ≠ 0#64 := by
      intro h
      have hb := congrArg (BitVec.getLsbD · n) h
      simp [hn] at hb
    simpa using h

@[simp] theorem flag_V (pte : Word) : flag pte PTE_V = pte.getLsbD 0 :=
  flag_shift pte 0 (by decide)

@[simp] theorem flag_R (pte : Word) : flag pte PTE_R = pte.getLsbD 1 :=
  flag_shift pte 1 (by decide)

@[simp] theorem flag_W (pte : Word) : flag pte PTE_W = pte.getLsbD 2 :=
  flag_shift pte 2 (by decide)

@[simp] theorem flag_X (pte : Word) : flag pte PTE_X = pte.getLsbD 3 :=
  flag_shift pte 3 (by decide)

@[simp] theorem flag_U (pte : Word) : flag pte PTE_U = pte.getLsbD 4 :=
  flag_shift pte 4 (by decide)

@[simp] theorem flag_COW (pte : Word) : flag pte PTE_COW = pte.getLsbD 8 :=
  flag_shift pte 8 (by decide)

theorem toNat_PA2PTE (hx : x < 2 ^ 44) : (PA2PTE (x * PGSIZE)).toNat = x * 1024 := by
  have hm : x * PGSIZE % 2 ^ 64 = x * PGSIZE := Nat.mod_eq_of_lt (by simp only [PGSIZE]; omega)
  have hd : (x * PGSIZE) >>> 12 = x := by
    rw [Nat.shiftRight_eq_div_pow]
    exact Nat.mul_div_cancel x (by decide)
  rw [PA2PTE, BitVec.toNat_shiftLeft, BitVec.toNat_ushiftRight, BitVec.toNat_ofNat, hm, hd,
    Nat.shiftLeft_eq]
  exact Nat.mod_eq_of_lt (by omega)

theorem toNat_mkPte (hx : x < 2 ^ 44) (hf : f.toNat < 1024) :
    (mkPte x f).toNat = x * 1024 + f.toNat := by
  rw [mkPte, BitVec.toNat_or, toNat_PA2PTE hx, Nat.mul_comm x 1024]
  exact (Nat.two_pow_add_eq_or_of_lt (i := 10) hf x).symm

theorem PTE2PA_mkPte (hx : x < 2 ^ 44) (hf : f.toNat < 1024) :
    PTE2PA (mkPte x f) = x * PGSIZE := by
  have hd : (x * 1024 + f.toNat) >>> 10 = x := by
    rw [Nat.shiftRight_eq_div_pow]
    omega
  rw [PTE2PA, BitVec.toNat_shiftLeft, BitVec.toNat_ushiftRight, toNat_mkPte hx hf, hd,
    Nat.shiftLeft_eq]
  exact Nat.mod_eq_of_lt (by omega)

theorem ppn_mkPte (hx : x < 2 ^ 44) (hf : f.toNat < 1024) : ppn (mkPte x f) = x := by
  rw [ppn, PTE2PA_mkPte hx hf]
  exact Nat.mul_div_cancel x (by decide)

theorem PTE_FLAGS_mkPte (hx : x < 2 ^ 44) (hf : f.toNat < 1024) : PTE_FLAGS (mkPte x f) = f := by
  apply BitVec.eq_of_toNat_eq
  rw [PTE_FLAGS, BitVec.toNat_and, toNat_mkPte hx hf]
  have hm : (x * 1024 + f.toNat) &&& 1023 = (x * 1024 + f.toNat) % 1024 :=
    Nat.and_two_pow_sub_one_eq_mod _ 10
  simpa only [BitVec.toNat_ofNat, show 1023 % 2 ^ 64 = 1023 from rfl, hm] using (by omega)

theorem PTE2PA_eq (pte : Word) : PTE2PA pte = ppn pte * PGSIZE := by
  have hd : 4096 ∣ PTE2PA pte := by
    rw [PTE2PA, BitVec.toNat_shiftLeft, Nat.shiftLeft_eq]
    omega
  simp only [ppn, PGSIZE]
  omega

theorem toNat_PTE_FLAGS (pte : Word) : (PTE_FLAGS pte).toNat < 1024 := by
  rw [PTE_FLAGS, BitVec.toNat_and]
  exact Nat.lt_of_le_of_lt Nat.and_le_right (by decide)

theorem getLsbD_PTE_FLAGS (pte : Word) (hi : i < 10) :
    (PTE_FLAGS pte).getLsbD i = pte.getLsbD i := by
  have hm : (1023 : Nat).testBit i = decide (i < 10) := Nat.testBit_two_pow_sub_one 10 i
  rw [PTE_FLAGS, BitVec.getLsbD_and, BitVec.getLsbD_ofNat, hm]
  simp [hi, show i < 64 by omega]

theorem getLsbD_mkPte (x : Nat) (f : Word) (hi : i < 10) :
    (mkPte x f).getLsbD i = f.getLsbD i := by
  simp [mkPte, PA2PTE, hi]

theorem mkPte_or (x : Nat) (f f' : Word) : PA2PTE (x * PGSIZE) ||| f ||| f' = mkPte x (f ||| f') :=
  BitVec.or_assoc _ _ _

theorem toNat_or_lt {f f' : Word} (hf : f.toNat < 1024) (hf' : f'.toNat < 1024) :
    (f ||| f').toNat < 1024 := by
  rw [BitVec.toNat_or]
  exact Nat.or_lt_two_pow (n := 10) hf hf'

theorem toNat_and_lt {f f' : Word} (hf : f.toNat < 1024) : (f &&& f').toNat < 1024 := by
  rw [BitVec.toNat_and]
  exact Nat.lt_of_le_of_lt Nat.and_le_left hf

theorem PX_eq (level va : Nat) : PX level va = va / PGSIZE / 512 ^ level % 512 := by
  rw [PX, Nat.shiftRight_eq_div_pow, Nat.pow_add, Nat.pow_mul, ← Nat.div_div_eq_div_mul]
  exact Nat.and_two_pow_sub_one_eq_mod _ 9

theorem PX_lt (level va : Nat) : PX level va < 512 := by
  rw [PX_eq]
  exact Nat.mod_lt _ (by decide)

end PbsCow

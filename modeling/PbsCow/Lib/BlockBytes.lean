import PbsCow.Lib.Bytes

namespace PbsCow
set_option autoImplicit true

/-- The bytes of a block, by their offset. -/
abbrev Block := Nat → Byte

namespace Block

def zero : Block := fun _ => 0

/-- The block with the bytes `bs` copied to offset `o`. -/
def write (b : Block) (o : Nat) (bs : List Byte) : Block :=
  fun i => if o ≤ i ∧ i < o + bs.length then bs.getD (i - o) 0 else b i

/-- The `m` bytes at offset `o`. -/
def read (b : Block) (o m : Nat) : List Byte := (List.range m).map fun i => b (o + i)

/-- Entry `j` of the block as an array of `uint`, the least significant byte first. -/
def uint (b : Block) (j : Nat) : Nat :=
  (b (4 * j)).toNat + 2 ^ 8 * (b (4 * j + 1)).toNat + 2 ^ 16 * (b (4 * j + 2)).toNat +
    2 ^ 24 * (b (4 * j + 3)).toNat

def setUint (b : Block) (j v : Nat) : Block :=
  fun i => if i / 4 = j then BitVec.ofNat 8 (v / 2 ^ (8 * (i % 4))) else b i

theorem uint_setUint (b : Block) (j k : Nat) (hv : v < 2 ^ 32) :
    (b.setUint j v).uint k = if k = j then v else b.uint k := by
  have hdiv (r : Nat) (hr : r < 4) : (4 * k + r) / 4 = k ∧ (4 * k + r) % 4 = r := by omega
  have h0 := hdiv 0 (by decide)
  have h1 := hdiv 1 (by decide)
  have h2 := hdiv 2 (by decide)
  have h3 := hdiv 3 (by decide)
  rw [Nat.add_zero] at h0
  simp only [uint, setUint, h0, h1, h2, h3]
  by_cases hk : k = j
  · simp only [hk, if_true, BitVec.toNat_ofNat]
    omega
  · simp only [if_neg hk]

theorem uint_zero (j : Nat) : zero.uint j = 0 := rfl

theorem uint_lt (b : Block) (j : Nat) : b.uint j < 2 ^ 32 := by
  have h0 := (b (4 * j)).isLt
  have h1 := (b (4 * j + 1)).isLt
  have h2 := (b (4 * j + 2)).isLt
  have h3 := (b (4 * j + 3)).isLt
  rw [uint]
  omega

theorem length_read (b : Block) (o m : Nat) : (b.read o m).length = m := by
  rw [read, List.length_map, List.length_range]

theorem write_nil (b : Block) (o : Nat) : b.write o [] = b := by
  funext i
  rw [write, if_neg]
  rw [List.length_nil]
  omega

theorem write_inside (b : Block) (bs : List Byte) (hi : i < bs.length) : b.write o bs (o + i) = bs.getD i 0 := by
  rw [write, if_pos ⟨Nat.le_add_right o i, Nat.add_lt_add_left hi o⟩, Nat.add_sub_cancel_left]

theorem write_outside (b : Block) (bs : List Byte) (h : i < o ∨ o + bs.length ≤ i) : b.write o bs i = b i := by
  rw [write, if_neg]
  omega

/-- Entry `j` of the block as an array of `ushort`. -/
def ushort (b : Block) (j : Nat) : Nat := (b (2 * j)).toNat + 2 ^ 8 * (b (2 * j + 1)).toNat

def setUshort (b : Block) (j v : Nat) : Block :=
  fun i => if i / 2 = j then BitVec.ofNat 8 (v / 2 ^ (8 * (i % 2))) else b i

/-- The `m` bytes at offset `o`, as a structure of their own. -/
def sub (b : Block) (o m : Nat) : Block := fun i => if i < m then b (o + i) else 0

theorem ushort_setUshort (b : Block) (j k : Nat) (hv : v < 2 ^ 16) :
    (b.setUshort j v).ushort k = if k = j then v else b.ushort k := by
  have hdiv (r : Nat) (hr : r < 2) : (2 * k + r) / 2 = k ∧ (2 * k + r) % 2 = r := by omega
  have h0 := hdiv 0 (by decide)
  have h1 := hdiv 1 (by decide)
  rw [Nat.add_zero] at h0
  simp only [ushort, setUshort, h0, h1]
  by_cases hk : k = j
  · simp only [hk, if_true, BitVec.toNat_ofNat]
    omega
  · simp only [if_neg hk]

theorem uint_congr {b c : Block} (h : ∀ i, i / 4 = j → b i = c i) : b.uint j = c.uint j := by
  rw [uint, uint, h (4 * j) (by omega), h (4 * j + 1) (by omega), h (4 * j + 2) (by omega), h (4 * j + 3) (by omega)]

theorem ushort_congr {b c : Block} (h : ∀ i, i / 2 = j → b i = c i) : b.ushort j = c.ushort j := by
  rw [ushort, ushort, h (2 * j) (by omega), h (2 * j + 1) (by omega)]

theorem uint_setUshort (b : Block) (v : Nat) (h : j / 2 ≠ k) : (b.setUshort j v).uint k = b.uint k := by
  apply uint_congr
  intro i hi
  rw [setUshort, if_neg]
  omega

theorem ushort_setUint (b : Block) (v : Nat) (h : k / 2 ≠ j) : (b.setUint j v).ushort k = b.ushort k := by
  apply ushort_congr
  intro i hi
  rw [setUint, if_neg]
  omega

/-- A structure that is copied into a block. -/
theorem write_sub (b d : Block) (hi : i < m) : b.write o (d.read 0 m) (o + i) = d i := by
  rw [write_inside]
  · rw [read, List.getD_eq_getElem?_getD, List.getElem?_map, List.getElem?_range hi, Option.map_some, Option.getD_some,
      Nat.zero_add]
  · rwa [length_read]

end Block

end PbsCow

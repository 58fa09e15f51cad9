import Mathlib.Data.Nat.ModEq
import Mathlib.Data.List.Basic
import Mathlib.Logic.Function.Basic

namespace PbsCow
set_option autoImplicit true

/-- The cell of a ring of `N` that the free-running index `i` names. -/
def ringSlot (N : Nat) (i : BitVec w) : Nat := i.toNat % N

/-- From index `i` on the cells of a ring hold a list. -/
def RingHolds (N : Nat) (buf : Nat → α) : BitVec w → List α → Prop
  | _, [] => True
  | i, x :: xs => buf (ringSlot N i) = x ∧ RingHolds N buf (i + 1) xs

section

variable {N : Nat} {buf : Nat → α} {i : BitVec w}

/-- The index may wrap around, if the size of the ring divides its range. -/
theorem ringSlot_add (hN : N ∣ 2 ^ w) (i : BitVec w) (k : Nat) :
    ringSlot N (i + BitVec.ofNat w k) = (i.toNat + k) % N := by
  rw [ringSlot, BitVec.toNat_add, BitVec.toNat_ofNat, Nat.mod_mod_of_dvd _ hN, Nat.add_mod,
    Nat.mod_mod_of_dvd _ hN, ← Nat.add_mod]

theorem ringSlot_ne (hN : N ∣ 2 ^ w) (hjk : j < k) (hk : k < N) :
    ringSlot N (i + BitVec.ofNat w j) ≠ ringSlot N (i + BitVec.ofNat w k) := by
  rw [ringSlot_add hN, ringSlot_add hN]
  intro he
  have hmod : j ≡ k [MOD N] := Nat.ModEq.add_left_cancel' i.toNat he
  have hj := hmod
  rw [Nat.ModEq, Nat.mod_eq_of_lt (hjk.trans hk), Nat.mod_eq_of_lt hk] at hj
  exact hjk.ne hj

theorem add_ofNat_succ (i : BitVec w) (k : Nat) :
    i + 1 + BitVec.ofNat w k = i + BitVec.ofNat w (k + 1) := by
  rw [BitVec.add_assoc, BitVec.add_comm 1]
  congr 1
  rw [BitVec.ofNat_add]
  rfl

/-- How far apart two indices are. -/
theorem index_sub (i : BitVec w) (hk : k < 2 ^ w) : (i + BitVec.ofNat w k - i).toNat = k := by
  rw [BitVec.add_comm, BitVec.add_sub_cancel, BitVec.toNat_ofNat]
  exact Nat.mod_eq_of_lt hk

theorem index_inj (i : BitVec w) (hj : j < 2 ^ w) (hk : k < 2 ^ w) :
    i + BitVec.ofNat w j = i + BitVec.ofNat w k ↔ j = k := by
  constructor
  · intro he
    rw [← index_sub i hj, he, index_sub i hk]
  · rintro rfl
    rfl

theorem index_eq_self (i : BitVec w) (hk : k < 2 ^ w) : i + BitVec.ofNat w k = i ↔ k = 0 := by
  have h := index_inj i hk (Nat.two_pow_pos w)
  rwa [show i + BitVec.ofNat w 0 = i by simp] at h

theorem index_succ (i : BitVec w) (k : Nat) : i + BitVec.ofNat w k + 1 = i + BitVec.ofNat w (k + 1) := by
  rw [← add_ofNat_succ, BitVec.add_assoc, BitVec.add_assoc, BitVec.add_comm 1]

theorem index_pred (i : BitVec w) (k : Nat) : i + BitVec.ofNat w (k + 1) - 1 = i + BitVec.ofNat w k := by
  rw [← index_succ, BitVec.add_sub_cancel]

theorem RingHolds.append : RingHolds N buf i (xs ++ ys) ↔
    RingHolds N buf i xs ∧ RingHolds N buf (i + BitVec.ofNat w xs.length) ys := by
  induction xs generalizing i with
  | nil => simp [RingHolds]
  | cons x xs ih => rw [List.cons_append, RingHolds, RingHolds, ih, add_ofNat_succ, and_assoc, List.length_cons]

/-- A write to a cell behind the list. -/
theorem RingHolds.update (hN : N ∣ 2 ^ w) (h : RingHolds N buf i xs) (hle : xs.length ≤ k) (hk : k < N) (x : α) :
    RingHolds N (Function.update buf (ringSlot N (i + BitVec.ofNat w k)) x) i xs := by
  induction xs generalizing i k with
  | nil => trivial
  | cons y ys ih =>
    obtain ⟨hy, hys⟩ := h
    rw [List.length_cons] at hle
    obtain ⟨k, rfl⟩ : ∃ k', k = k' + 1 := ⟨k - 1, by omega⟩
    refine ⟨?_, ?_⟩
    · rw [Function.update_of_ne, hy]
      have hne := ringSlot_ne (i := i) hN (Nat.succ_pos k) hk
      rwa [show i + BitVec.ofNat w 0 = i by simp] at hne
    · rw [← add_ofNat_succ]
      exact ih hys (by omega) (by omega)

theorem RingHolds.push (hN : N ∣ 2 ^ w) (h : RingHolds N buf i xs) (hlt : xs.length < N) (x : α) :
    RingHolds N (Function.update buf (ringSlot N (i + BitVec.ofNat w xs.length)) x) i (xs ++ [x]) :=
  RingHolds.append.2 ⟨h.update hN (le_refl _) hlt x, Function.update_self .., trivial⟩

theorem RingHolds.last (h : RingHolds N buf i (xs ++ [x])) :
    buf (ringSlot N (i + BitVec.ofNat w xs.length)) = x :=
  (RingHolds.append.1 h).2.1

/-- The list that the cells hold is the only one of its length. -/
theorem RingHolds.cells (h : RingHolds N buf i xs) :
    (List.range xs.length).map (fun k => buf (ringSlot N (i + BitVec.ofNat w k))) = xs := by
  induction xs generalizing i with
  | nil => rfl
  | cons x xs ih =>
    rw [List.length_cons, List.range_succ_eq_map, List.map_cons, List.map_map]
    have hrest := ih h.2
    simp only [add_ofNat_succ] at hrest
    rw [show i + BitVec.ofNat w 0 = i by simp, h.1]
    exact congrArg _ hrest

end

end PbsCow

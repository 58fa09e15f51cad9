import Mathlib.Algebra.BigOperators.Group.Finset.Basic
import Mathlib.Algebra.Order.BigOperators.Group.Finset

namespace PbsCow
set_option autoImplicit true

/-- The count of a thing is what its owners hold of it together, and no owner holds less than nothing. -/
structure Shares {τ : Type} [Fintype τ] (count : Int) (share : τ → Int) : Prop where
  sum : count = ∑ t, share t
  nonneg : ∀ t, 0 ≤ share t

namespace Shares

variable {τ : Type} [Fintype τ] {count : Int} {share share' : τ → Int}

theorem le (h : Shares count share) (t : τ) : share t ≤ count := by
  rw [h.sum]
  exact Finset.single_le_sum (fun i _ => h.nonneg i) (Finset.mem_univ t)

theorem zero (h : Shares 0 share) (t : τ) : share t = 0 :=
  Int.le_antisymm (h.le t) (h.nonneg t)

/-- Who holds all of it is alone. -/
theorem alone (h : Shares count share) (ht : share t = count) (hne : t' ≠ t) : share t' = 0 := by
  classical
  have hsum := h.sum
  rw [← Finset.add_sum_erase _ share (Finset.mem_univ t), ht] at hsum
  have hrest : ∑ i ∈ Finset.univ.erase t, share i = 0 := by omega
  exact (Finset.sum_eq_zero_iff_of_nonneg fun i _ => h.nonneg i).1 hrest t'
    (Finset.mem_erase.2 ⟨hne, Finset.mem_univ t'⟩)

/-- One owner takes `d` more, or gives it back. -/
theorem change (share' : τ → Int) (h : Shares count share) (t : τ) (d : Int) (hpos : 0 ≤ share t + d)
    (hself : share' t = share t + d) (hother : ∀ i, i ≠ t → share' i = share i) : Shares (count + d) share' := by
  classical
  constructor
  · rw [h.sum, ← Finset.add_sum_erase _ share (Finset.mem_univ t), ← Finset.add_sum_erase _ share' (Finset.mem_univ t),
      hself]
    have hrest : ∑ i ∈ Finset.univ.erase t, share' i = ∑ i ∈ Finset.univ.erase t, share i :=
      Finset.sum_congr rfl fun i hi => hother i (Finset.ne_of_mem_erase hi)
    rw [hrest]
    omega
  · intro i
    by_cases hi : i = t
    · rw [hi, hself]
      exact hpos
    · rw [hother i hi]
      exact h.nonneg i

/-- One owner gives `d` to another. -/
theorem give (h : Shares count share) (t t' : τ) (d : Int) (hd : 0 ≤ d) (hpos : d ≤ share t) (hne : t' ≠ t)
    (hself : share' t = share t - d) (hto : share' t' = share t' + d)
    (hother : ∀ i, i ≠ t → i ≠ t' → share' i = share i) : Shares count share' := by
  classical
  have hnn := h.nonneg t'
  have h₁ : Shares (count + -d) (Function.update share t (share t - d)) := by
    apply h.change _ t (-d) (by omega)
    · rw [Function.update_self]
      omega
    · intro i hi
      rw [Function.update_of_ne hi]
  have h₂ := h₁.change share' t' d
    (by rw [Function.update_of_ne hne]; omega) (by rw [Function.update_of_ne hne, hto]) fun i hi => by
      by_cases hit : i = t
      · rw [hit, Function.update_self, hself]
      · rw [Function.update_of_ne hit, hother i hit hi]
  rwa [Int.neg_add_cancel_right] at h₂

end Shares

end PbsCow

import Mathlib.Algebra.BigOperators.Group.Finset.Piecewise

namespace PbsCow
set_option autoImplicit true

/-- At most one index has the property `P`, and counts 1; the others count 0. -/
theorem Finset.sum_unique {ι : Type} {s : Finset ι} {f : ι → Nat} {P : ι → Prop} [DecidablePred P]
    [Decidable (∃ i ∈ s, P i)] (hP : ∀ i ∈ s, ∀ j ∈ s, P i → P j → i = j)
    (hf : ∀ i ∈ s, f i = if P i then 1 else 0) : ∑ i ∈ s, f i = if ∃ i ∈ s, P i then 1 else 0 := by
  rw [Finset.sum_congr rfl hf]
  by_cases h : ∃ i ∈ s, P i
  · obtain ⟨i, hi, hPi⟩ := h
    rw [if_pos ⟨i, hi, hPi⟩, Finset.sum_eq_single_of_mem i hi, if_pos hPi]
    intro j hj hne
    exact if_neg fun hPj => hne (hP j hj i hi hPj hPi)
  · rw [if_neg h, Finset.sum_eq_zero]
    intro i hi
    exact if_neg fun hPi => h ⟨i, hi, hPi⟩

theorem Finset.card_unique {ι : Type} {s : Finset ι} {P : ι → Prop} [DecidablePred P]
    [Decidable (∃ i ∈ s, P i)] (hP : ∀ i ∈ s, ∀ j ∈ s, P i → P j → i = j) :
    (s.filter P).card = if ∃ i ∈ s, P i then 1 else 0 := by
  rw [Finset.card_filter]
  exact Finset.sum_unique hP fun _ _ => rfl

theorem Finset.card_filter_change {ι : Type} [Fintype ι] [DecidableEq ι] (p p' : ι → Bool) (i : ι)
    (h : ∀ j, j ≠ i → p' j = p j) :
    (Finset.univ.filter fun j => p' j).card + (p i).toNat = (Finset.univ.filter fun j => p j).card + (p' i).toNat := by
  have hcount (q : ι → Bool) : (Finset.univ.filter fun j => q j).card =
      (q i).toNat + ∑ j ∈ Finset.univ.erase i, (q j).toNat := by
    rw [Finset.card_filter, Finset.add_sum_erase _ (fun j => (q j).toNat) (Finset.mem_univ i)]
    refine Finset.sum_congr rfl fun j _ => ?_
    cases q j <;> rfl
  have hrest : ∑ j ∈ Finset.univ.erase i, (p' j).toNat = ∑ j ∈ Finset.univ.erase i, (p j).toNat :=
    Finset.sum_congr rfl fun j hj => by rw [h j (Finset.ne_of_mem_erase hj)]
  rw [hcount, hcount, hrest, Nat.add_right_comm]
  omega

theorem Finset.card_filter_update {ι α : Type} [Fintype ι] [DecidableEq ι] (q : α → Bool) (f : ι → α) (i : ι) (a : α) :
    (Finset.univ.filter fun j => q (Function.update f i a j)).card + (q (f i)).toNat =
      (Finset.univ.filter fun j => q (f j)).card + (q a).toNat := by
  have h := Finset.card_filter_change (fun j => q (f j)) (fun j => q (Function.update f i a j)) i
    fun j hj => by rw [Function.update_of_ne hj]
  rwa [Function.update_self] at h

/-- How many numbers below `n` have the property. -/
def countBelow (n : Nat) (p : Nat → Bool) : Nat := (List.range n).countP p

theorem countBelow_succ (n : Nat) (p : Nat → Bool) :
    countBelow (n + 1) p = countBelow n p + (p n).toNat := by
  rw [countBelow, List.range_succ, List.countP_append, List.countP_singleton]
  cases p n <;> rfl

theorem countBelow_false (n : Nat) : countBelow n (fun _ => false) = 0 := by
  simp [countBelow]

theorem countBelow_congr {p p' : Nat → Bool} (h : ∀ i, i < n → p' i = p i) :
    countBelow n p' = countBelow n p := by
  induction n with
  | zero => rfl
  | succ n ih =>
    rw [countBelow_succ, countBelow_succ, h n (Nat.lt_succ_self n),
      ih fun i hi => h i (Nat.lt_succ_of_lt hi)]

/-- What a change at one place does. -/
theorem countBelow_change (p p' : Nat → Bool) (hi : i < n) (h : ∀ j, j ≠ i → p' j = p j) :
    countBelow n p' + (p i).toNat = countBelow n p + (p' i).toNat := by
  induction n with
  | zero => cases hi
  | succ n ih =>
    rw [countBelow_succ, countBelow_succ]
    by_cases hn : i = n
    · subst hn
      rw [countBelow_congr fun j hj => h j (Nat.ne_of_lt hj)]
      omega
    · have := ih (Nat.lt_of_le_of_ne (Nat.le_of_lt_succ hi) hn)
      rw [h n (Ne.symm hn)]
      omega

theorem countBelow_mono {p p' : Nat → Bool} (h : ∀ i, i < n → p i = true → p' i = true) :
    countBelow n p ≤ countBelow n p' :=
  List.countP_mono_left fun i hi => h i (List.mem_range.1 hi)

theorem countBelow_lt {p p' : Nat → Bool} (hi : i < n) (h : ∀ k, k < n → p k = true → p' k = true)
    (hp : p i = false) (hp' : p' i = true) : countBelow n p < countBelow n p' := by
  have hchange := countBelow_change p (Function.update p i true) hi fun j hj =>
    Function.update_of_ne hj _ _
  rw [Function.update_self, hp] at hchange
  have hle : countBelow n (Function.update p i true) ≤ countBelow n p' := by
    apply countBelow_mono
    intro k hk hpk
    by_cases hki : k = i
    · rw [hki]
      exact hp'
    · rw [Function.update_of_ne hki] at hpk
      exact h k hk hpk
  simp only [Bool.toNat_false, Bool.toNat_true] at hchange
  omega

theorem countBelow_exists {p : Nat → Bool} (h : countBelow n p < n) : ∃ i, i < n ∧ p i = false := by
  by_contra hno
  have hall : countBelow n (fun _ => true) ≤ countBelow n p := by
    apply countBelow_mono
    intro i hi _
    cases hp : p i with
    | true => rfl
    | false => exact (hno ⟨i, hi, hp⟩).elim
  have htrue : countBelow n (fun _ => true) = n := by
    rw [countBelow, List.countP_true, List.length_range]
  omega

end PbsCow

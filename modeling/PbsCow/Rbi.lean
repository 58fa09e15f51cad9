import PbsCow.DynamicPriority

namespace PbsCow
set_option autoImplicit true

/-- The index as the problem statement defines it, for the times that a process has run, slept and
waited. -/
def rbiFormula (rtime stime wtime : Nat) : Int :=
  max (Int.tdiv (50 * (3 * rtime - stime - wtime)) (rtime + wtime + stime + 1)) 0

/-- The fifty bands of quotients that give 0, or more than an `int` holds, when they are multiplied
by 50. -/
def InBand (n d : Nat) : Prop :=
  ∃ k < 50, ((2 * k + 1) * 2 ^ 31 + 49) / 50 * d ≤ n ∧ n < ((k + 1) * 2 ^ 32 / 50 + 1) * d

/-- The division before the multiplication does no harm. For a negative numerator the difference wraps
around, and the quotient must be in a band. -/
def RbiExact (rtime stime wtime : Nat) : Prop :=
  if stime + wtime ≤ 3 * rtime then
    50 * ((3 * rtime - stime - wtime) % (rtime + wtime + stime + 1)) < rtime + wtime + stime + 1
  else
    2 ^ 32 + 3 * rtime - stime - wtime < rtime + wtime + stime + 1 ∨
      InBand (2 ^ 32 + 3 * rtime - stime - wtime) (rtime + wtime + stime + 1)

theorem rbiFormula_nonneg (h : stime + wtime ≤ 3 * rtime) : rbiFormula rtime stime wtime =
    (50 * (3 * rtime - stime - wtime) / (rtime + wtime + stime + 1) : Nat) := by
  have hn : (50 * (3 * rtime - stime - wtime) : Int) =
      ((50 * (3 * rtime - stime - wtime) : Nat) : Int) := by omega
  have hd : (rtime + wtime + stime + 1 : Int) = ((rtime + wtime + stime + 1 : Nat) : Int) := by omega
  rw [rbiFormula, hn, hd, Int.tdiv_eq_ediv_of_nonneg (Int.natCast_nonneg _), ← Int.natCast_ediv]
  exact max_eq_left (Int.natCast_nonneg _)

theorem rbiFormula_neg (h : 3 * rtime < stime + wtime) : rbiFormula rtime stime wtime = 0 := by
  have hn : 50 * (3 * rtime - stime - wtime : Int) = -(50 * (stime + wtime - 3 * rtime)) := by omega
  rw [rbiFormula, hn, Int.neg_tdiv]
  refine max_eq_right (Int.neg_nonpos_of_nonneg (Int.tdiv_nonneg ?_ ?_))
  all_goals omega

/-- A longer wait or sleep never raises the index of the problem statement. -/
theorem rbiFormula_mono (hs : stime ≤ stime') (hw : wtime ≤ wtime') :
    rbiFormula rtime stime' wtime' ≤ rbiFormula rtime stime wtime := by
  by_cases h' : stime' + wtime' ≤ 3 * rtime
  · rw [rbiFormula_nonneg h', rbiFormula_nonneg (by omega), Int.ofNat_le]
    refine Nat.div_le_div (Nat.mul_le_mul_left 50 ?_) ?_ ?_
    all_goals omega
  · rw [rbiFormula_neg (Nat.lt_of_not_le h')]
    exact le_max_right _ _

/-- 50 times the quotient is 0 as an `int`, or negative. -/
theorem band_iff (hd : 0 < d) (hn : n < 2 ^ 32) :
    50 * (n / d) % 2 ^ 32 = 0 ∨ 2 ^ 31 ≤ 50 * (n / d) % 2 ^ 32 ↔ n < d ∨ InBand n d := by
  have hzero : n < d ↔ n / d = 0 := by
    rw [Nat.div_eq_zero_iff]
    omega
  have hlow (k a : Nat) : ((2 * k + 1) * 2 ^ 31 + 49) / 50 ≤ a ↔ (2 * k + 1) * 2 ^ 31 ≤ 50 * a := by
    omega
  have hhigh (k a : Nat) : a < (k + 1) * 2 ^ 32 / 50 + 1 ↔ 50 * a ≤ (k + 1) * 2 ^ 32 := by
    omega
  have hband : InBand n d ↔ ∃ k < 50, (2 * k + 1) * 2 ^ 31 ≤ 50 * (n / d) ∧
      50 * (n / d) ≤ (k + 1) * 2 ^ 32 := by
    simp only [InBand, ← Nat.le_div_iff_mul_le hd, ← Nat.div_lt_iff_lt_mul hd, hlow, hhigh]
  have hlt : n / d < 2 ^ 32 := Nat.lt_of_le_of_lt (Nat.div_le_self n d) hn
  rw [hzero, hband]
  generalize n / d = a at hlt
  have hdiv := Nat.div_add_mod (50 * a) (2 ^ 32)
  have hmod := Nat.mod_lt (50 * a) (show 2 ^ 32 > 0 by decide)
  generalize 50 * a / 2 ^ 32 = b at hdiv
  generalize 50 * a % 2 ^ 32 = r at hdiv hmod
  constructor
  · rintro (rfl | hr)
    · cases b with
      | zero => exact .inl (by omega)
      | succ b => exact .inr ⟨b, by omega, by omega, by omega⟩
    · exact .inr ⟨b, by omega, by omega, by omega⟩
  · rintro (rfl | ⟨k, _, hlo, hhi⟩)
    · exact .inl (by omega)
    · by_cases hk : b ≤ k
      · exact .inr (by omega)
      · exact .inl (by omega)

/-- Multiplying after the division loses nothing. -/
theorem fifty_div_eq_iff (n : Nat) (hd : 0 < d) : 50 * (n / d) = 50 * n / d ↔ 50 * (n % d) < d := by
  have hsplit : 50 * n = 50 * (n % d) + d * (50 * (n / d)) := by
    calc 50 * n = 50 * (d * (n / d) + n % d) := by rw [Nat.div_add_mod]
      _ = 50 * (n % d) + d * (50 * (n / d)) := by rw [Nat.mul_add, Nat.add_comm, Nat.mul_left_comm]
  rw [hsplit, Nat.add_mul_div_left _ _ hd]
  constructor
  · intro h
    have h0 : 50 * (n % d) / d = 0 := by omega
    rcases Nat.div_eq_zero_iff.1 h0 with h0 | h0
    · omega
    · exact h0
  · intro h
    rw [Nat.div_eq_of_lt h, Nat.zero_add]

/-- What `_rbi` returns, in terms of the numerator that it computes. -/
theorem rbi_toInt {q : Proc} (hflag : q.rbi ≠ 25)
    (hsum : q.my_rtime.toNat + q.my_stime.toNat + q.my_wtime.toNat + 1 < 2 ^ 32)
    (hn : (3 * q.my_rtime - q.my_stime - q.my_wtime).toNat = n)
    (hd : q.my_rtime.toNat + q.my_wtime.toNat + q.my_stime.toNat + 1 = d) :
    (_rbi q).1.toInt = if 2 ^ 31 ≤ 50 * (n / d) % 2 ^ 32 then 0 else (50 * (n / d) % 2 ^ 32 : Nat) := by
  have e1 : (1 : BitVec 32).toNat = 1 := rfl
  have e50 : (50 : BitVec 32).toNat = 50 := rfl
  have hden : (q.my_rtime + q.my_wtime + q.my_stime + 1).toNat = d := by
    simp only [BitVec.toNat_add, e1]
    omega
  have hd0 : q.my_rtime + q.my_wtime + q.my_stime + 1 ≠ 0#32 := by
    intro h0
    rw [h0] at hden
    simp at hden
    omega
  have ha : (50 * (3 * q.my_rtime - q.my_stime - q.my_wtime).smtUDiv
      (q.my_rtime + q.my_wtime + q.my_stime + 1)).toNat = 50 * (n / d) % 2 ^ 32 := by
    rw [BitVec.toNat_mul, e50, BitVec.smtUDiv_eq, if_neg hd0, BitVec.toNat_udiv, hn, hden]
  rw [_rbi, if_neg hflag]
  dsimp only
  rw [← ha]
  generalize 50 * BitVec.smtUDiv _ _ = a
  have hcond := BitVec.toInt_eq_toNat_cond a
  by_cases hbig : 2 ^ 31 ≤ a.toNat
  · rw [if_neg (by omega)] at hcond
    rw [if_pos hbig, if_pos (by omega)]
    rfl
  · rw [if_pos (by omega)] at hcond
    rw [if_neg hbig, if_neg (by omega), hcond]

/-- `_rbi` follows the formula of the problem statement exactly where its division is exact enough and
its difference does not wrap around to another value. -/
theorem rbi_eq_formula {q : Proc} (hflag : q.rbi ≠ 25) (h3 : 3 * q.my_rtime.toNat < 2 ^ 32)
    (hsum : q.my_rtime.toNat + q.my_stime.toNat + q.my_wtime.toNat + 1 < 2 ^ 32) :
    (_rbi q).1.toInt = rbiFormula q.my_rtime.toNat q.my_stime.toNat q.my_wtime.toNat ↔
      RbiExact q.my_rtime.toNat q.my_stime.toNat q.my_wtime.toNat := by
  have e3 : (3 : BitVec 32).toNat = 3 := rfl
  rw [RbiExact]
  split
  · rename_i hle
    have hnum : (3 * q.my_rtime - q.my_stime - q.my_wtime).toNat =
        3 * q.my_rtime.toNat - q.my_stime.toNat - q.my_wtime.toNat := by
      simp only [BitVec.toNat_sub, BitVec.toNat_mul, e3]
      omega
    rw [rbi_toInt hflag hsum hnum rfl, rbiFormula_nonneg hle]
    generalize hn : 3 * q.my_rtime.toNat - q.my_stime.toNat - q.my_wtime.toNat = n
    generalize hd : q.my_rtime.toNat + q.my_wtime.toNat + q.my_stime.toNat + 1 = d
    have hquot : n / d ≤ 2 := Nat.le_of_lt_succ (Nat.div_lt_of_lt_mul (by omega))
    have hmod : 50 * (n / d) % 2 ^ 32 = 50 * (n / d) := Nat.mod_eq_of_lt (by omega)
    rw [hmod, if_neg (by omega), Int.natCast_inj]
    exact fifty_div_eq_iff n (by omega)
  · rename_i hle
    have hnum : (3 * q.my_rtime - q.my_stime - q.my_wtime).toNat =
        2 ^ 32 + 3 * q.my_rtime.toNat - q.my_stime.toNat - q.my_wtime.toNat := by
      simp only [BitVec.toNat_sub, BitVec.toNat_mul, e3]
      omega
    rw [rbi_toInt hflag hsum hnum rfl, rbiFormula_neg (by omega), ← band_iff (by omega) (by omega)]
    split
    · rename_i hbig
      exact iff_of_true rfl (.inr hbig)
    · rename_i hbig
      rw [Int.natCast_eq_zero]
      exact ⟨.inl, fun h => h.resolve_right hbig⟩

/-- The ticks of `q` for which `_rbi` computes its index fit their types. -/
structure Proc.Ticks (q : Proc) : Prop where
  flag : q.rbi ≠ 25
  rtime : 3 * q.my_rtime.toNat < 2 ^ 32
  sum : q.my_rtime.toNat + q.my_stime.toNat + q.my_wtime.toNat + 1 < 2 ^ 32

def Proc.Exact (q : Proc) : Prop := RbiExact q.my_rtime.toNat q.my_stime.toNat q.my_wtime.toNat

/-- `_rbi` returns what the problem statement says exactly for the ticks for which its division is exact
enough, and its difference does not wrap around to another value. Among these it does not grow with the
time that the process has slept or waited. -/
theorem rbi_formula_iff (q : Proc) (h : q.Ticks) :
    ((_rbi q).1.toInt = rbiFormula q.my_rtime.toNat q.my_stime.toNat q.my_wtime.toNat ↔ q.Exact) ∧
    ∀ q' : Proc, q'.Ticks → q'.my_rtime = q.my_rtime → q.my_stime.toNat ≤ q'.my_stime.toNat →
      q.my_wtime.toNat ≤ q'.my_wtime.toNat → q.Exact → q'.Exact →
      (_rbi q').1.toInt ≤ (_rbi q).1.toInt := by
  refine ⟨rbi_eq_formula h.flag h.rtime h.sum, fun q' h' hr hs hw he he' => ?_⟩
  rw [(rbi_eq_formula h.flag h.rtime h.sum).2 he, (rbi_eq_formula h'.flag h'.rtime h'.sum).2 he', hr]
  exact rbiFormula_mono hs hw

/-- A process that has run for a tick and slept for three. -/
def rested : Proc := { Proc.zero with my_rtime := 1, my_stime := 3 }

theorem rbi_formula_iff_rested : rested.Ticks ∧
    ((_rbi rested).1.toInt = rbiFormula 1 3 0 ↔ rested.Exact) := by
  have h : rested.Ticks := ⟨by decide, by decide, by decide⟩
  exact ⟨h, (rbi_formula_iff rested h).1⟩

/-- A process that has run for a tick gets 50 in place of 75, and one that has waited for three ticks
gets an index that is far too large. -/
theorem rbi_not_formula :
    (∃ q : Proc, q.Ticks ∧ q.my_rtime = 1 ∧ q.my_stime = 0 ∧ q.my_wtime = 0 ∧
      (_rbi q).1.toInt = 50 ∧ rbiFormula 1 0 0 = 75) ∧
    ∃ q : Proc, q.Ticks ∧ q.my_rtime = 0 ∧ q.my_stime = 0 ∧ q.my_wtime = 3 ∧
      (_rbi q).1.toInt = 2147483598 ∧ rbiFormula 0 0 3 = 0 := by
  refine ⟨⟨{ Proc.zero with my_rtime := 1 }, ⟨by decide, by decide, by decide⟩, rfl, rfl, rfl, ?_, ?_⟩,
    ⟨{ Proc.zero with my_wtime := 3 }, ⟨by decide, by decide, by decide⟩, rfl, rfl, rfl, ?_, ?_⟩⟩
  all_goals decide

end PbsCow

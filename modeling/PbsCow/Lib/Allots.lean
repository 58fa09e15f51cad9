import Mathlib.Logic.Function.Basic

namespace PbsCow
set_option autoImplicit true

/-- Slots that name the units of a pool, `0` for none: a unit below `limit` that is in use is one that is
kept from the start, or is named by one slot. -/
structure Allots (kept : Nat → Prop) (limit : Nat) (ref : σ → Nat) (used : Nat → Bool) : Prop where
  inj : ref a ≠ 0 → ref a = ref b → a = b
  marked : ref a ≠ 0 → used (ref a) = true
  lt : ref a ≠ 0 → ref a < limit
  loose : ref a ≠ 0 → ¬kept (ref a)
  exact : b < limit → used b = true → kept b ∨ ∃ a, ref a = b ∧ ref a ≠ 0
  saved : kept b → used b = true

namespace Allots

variable {kept : Nat → Prop} {limit b : Nat} {ref : σ → Nat} {used : Nat → Bool} {a : σ}

theorem iff (h : Allots kept limit ref used) (hb : b < limit) :
    used b = true ↔ kept b ∨ ∃ a, ref a = b ∧ ref a ≠ 0 := by
  constructor
  · exact h.exact hb
  · intro hk
    rcases hk with hk | ⟨a, rfl, hne⟩
    · exact h.saved hk
    · exact h.marked hne

theorem not_ref (h : Allots kept limit ref used) (hb : used b = false) (hne : ref a ≠ 0) : ref a ≠ b := by
  rintro rfl
  rw [h.marked hne] at hb
  cases hb

variable [DecidableEq σ]

/-- A slot takes a free unit. -/
theorem take (h : Allots kept limit ref used) (ha : ref a = 0) (hb : used b = false) (hlt : b < limit)
    (h0 : b ≠ 0) : Allots kept limit (Function.update ref a b) (Function.update used b true) := by
  have hold {c} (hc : c ≠ a) : Function.update ref a b c = ref c := Function.update_of_ne hc _ _
  have hnew : Function.update ref a b a = b := Function.update_self a b ref
  have hself : Function.update used b true b = true := Function.update_self b true used
  have hmono {u} (hu : used u = true) : Function.update used b true u = true := by
    by_cases hub : u = b
    · rw [hub, hself]
    · rwa [Function.update_of_ne hub]
  constructor
  · intro c d hc hcd
    by_cases hca : c = a <;> by_cases hda : d = a
    · rw [hca, hda]
    · rw [hca, hnew, hold hda] at hcd
      exact absurd hcd.symm (h.not_ref hb (by rwa [← hcd]))
    · rw [hda, hnew, hold hca] at hcd
      exact absurd hcd (h.not_ref hb (by rwa [hcd]))
    · rw [hold hca] at hc
      rw [hold hca, hold hda] at hcd
      exact h.inj hc hcd
  · intro c hc
    by_cases hca : c = a
    · rw [hca, hnew, hself]
    · rw [hold hca] at hc ⊢
      exact hmono (h.marked hc)
  · intro c hc
    by_cases hca : c = a
    · rwa [hca, hnew]
    · rw [hold hca] at hc ⊢
      exact h.lt hc
  · intro c hc hk
    by_cases hca : c = a
    · rw [hca, hnew] at hk
      rw [h.saved hk] at hb
      cases hb
    · rw [hold hca] at hc hk
      exact h.loose hc hk
  · intro u hu huse
    by_cases hub : u = b
    · exact .inr ⟨a, by rw [hnew, hub], by rwa [hnew]⟩
    · rw [Function.update_of_ne hub] at huse
      rcases h.exact hu huse with hk | ⟨c, hc, hne⟩
      · exact .inl hk
      · have hca : c ≠ a := by
          rintro rfl
          exact hne ha
        exact .inr ⟨c, by rw [hold hca, hc], by rwa [hold hca]⟩
  · intro u hk
    exact hmono (h.saved hk)

/-- A slot gives its unit back. -/
theorem give (h : Allots kept limit ref used) (ha : ref a ≠ 0) :
    Allots kept limit (Function.update ref a 0) (Function.update used (ref a) false) := by
  have hold {c} (hc : c ≠ a) : Function.update ref a 0 c = ref c := Function.update_of_ne hc _ _
  have hnew : Function.update ref a 0 a = 0 := Function.update_self a 0 ref
  have hca {c} (hc : Function.update ref a 0 c ≠ 0) : c ≠ a := by
    rintro rfl
    exact hc hnew
  constructor
  · intro c d hc hcd
    have hda : d ≠ a := hca (by rwa [← hcd])
    rw [hold (hca hc), hold hda] at hcd
    rw [hold (hca hc)] at hc
    exact h.inj hc hcd
  · intro c hc
    have hne := hca hc
    rw [hold hne] at hc ⊢
    rw [Function.update_of_ne]
    · exact h.marked hc
    · intro he
      exact hne (h.inj hc he)
  · intro c hc
    have hne := hca hc
    rw [hold hne] at hc ⊢
    exact h.lt hc
  · intro c hc
    have hne := hca hc
    rw [hold hne] at hc ⊢
    exact h.loose hc
  · intro u hu huse
    by_cases hub : u = ref a
    · rw [hub, Function.update_self] at huse
      cases huse
    · rw [Function.update_of_ne hub] at huse
      rcases h.exact hu huse with hk | ⟨c, hc, hne⟩
      · exact .inl hk
      · have hca : c ≠ a := by
          rintro rfl
          exact hub hc.symm
        exact .inr ⟨c, by rw [hold hca, hc], by rwa [hold hca]⟩
  · intro u hk
    rw [Function.update_of_ne]
    · exact h.saved hk
    · rintro rfl
      exact h.loose ha hk

end Allots

end PbsCow

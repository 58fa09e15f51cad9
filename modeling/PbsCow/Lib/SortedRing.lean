import Mathlib.Data.Finset.Max
import Mathlib.Logic.Function.Iterate

namespace PbsCow
set_option autoImplicit true

section

variable {α : Type*} [LinearOrder α] {next : α → α} {F : Finset α}

/-- `g` is the element of `F` after `f`, or the first one if `f` is the last. -/
def NextIn (F : Finset α) (f g : α) : Prop :=
  g ∈ F ∧ ((f < g ∧ ∀ x ∈ F, x ≤ f ∨ g ≤ x) ∨ ((∀ x ∈ F, x ≤ f) ∧ ∀ x ∈ F, g ≤ x))

/-- `next` goes round the set in ascending order. -/
def SortedRing (next : α → α) (F : Finset α) : Prop := ∀ f ∈ F, NextIn F f (next f)

/-- `b` has its place between `p` and the one after it, `q`. -/
def Between (p b q : α) : Prop := (p < b ∧ b < q) ∨ (q ≤ p ∧ (p < b ∨ b < q))

theorem SortedRing.congr {next' : α → α} (h : SortedRing next F) (he : ∀ f ∈ F, next' f = next f) :
    SortedRing next' F := by
  intro f hf
  rw [he f hf]
  exact h f hf

/-- There is nothing between an element and the one after it. -/
theorem SortedRing.gap (h : SortedRing next F) (hf : f ∈ F) (hx : x ∈ F) (hlt : f < x) :
    f < next f ∧ next f ≤ x := by
  rcases (h f hf).2 with ⟨hnext, hgap⟩ | ⟨hlast, _⟩
  · refine ⟨hnext, ?_⟩
    rcases hgap x hx with hle | hle
    · exact absurd hlt (not_lt_of_ge hle)
    · exact hle
  · exact absurd hlt (not_lt_of_ge (hlast x hx))

/-- Where the ring does not ascend it goes from the last element to the first. -/
theorem SortedRing.wrap (h : SortedRing next F) (hf : f ∈ F) (hle : next f ≤ f) (hx : x ∈ F) :
    x ≤ f ∧ next f ≤ x := by
  rcases (h f hf).2 with ⟨hlt, _⟩ | ⟨hlast, hfirst⟩
  · exact absurd hlt (not_lt_of_ge hle)
  · exact ⟨hlast x hx, hfirst x hx⟩

theorem SortedRing.injective (h : SortedRing next F) (hf : f ∈ F) (hp : p ∈ F) (he : next f = next p) :
    f = p := by
  have hnot {f p : α} (hf : f ∈ F) (hp : p ∈ F) (he : next f = next p) : ¬ f < p := by
    intro hlt
    obtain ⟨hup, hle⟩ := h.gap hf hp hlt
    rw [he] at hup hle
    exact absurd hup (not_lt_of_ge (h.wrap hp hle hf).2)
  exact le_antisymm (le_of_not_gt (hnot hp hf he.symm)) (le_of_not_gt (hnot hf hp he))

theorem SortedRing.insert (h : SortedRing next F) (hp : p ∈ F) (hb : b ∉ F) (hbt : Between p b (next p)) :
    SortedRing (Function.update (Function.update next b (next p)) p b) (insert b F) := by
  have hpb : p ≠ b := fun he => hb (he ▸ hp)
  intro f hins
  rcases Finset.mem_insert.mp hins with rfl | hf
  · -- the new element
    rw [Function.update_of_ne hpb.symm, Function.update_self]
    refine ⟨Finset.mem_insert_of_mem (h p hp).1, ?_⟩
    rcases hbt with ⟨hlt, hlt'⟩ | ⟨hle, hlt⟩
    · refine .inl ⟨hlt', fun x hx => ?_⟩
      rcases Finset.mem_insert.mp hx with rfl | hx
      · exact .inl le_rfl
      · rcases lt_or_ge p x with hpx | hxp
        · exact .inr (h.gap hp hx hpx).2
        · exact .inl (hxp.trans hlt.le)
    · rcases hlt with hlt | hlt
      · refine .inr ⟨fun x hx => ?_, fun x hx => ?_⟩
        · rcases Finset.mem_insert.mp hx with rfl | hx
          · exact le_rfl
          · exact (h.wrap hp hle hx).1.trans hlt.le
        · rcases Finset.mem_insert.mp hx with rfl | hx
          · exact hle.trans hlt.le
          · exact (h.wrap hp hle hx).2
      · refine .inl ⟨hlt, fun x hx => ?_⟩
        rcases Finset.mem_insert.mp hx with rfl | hx
        · exact .inl le_rfl
        · exact .inr (h.wrap hp hle hx).2
  · have hfb : f ≠ b := fun he => hb (he ▸ hf)
    by_cases hfp : f = p
    · rw [hfp, Function.update_self]
      refine ⟨Finset.mem_insert_self b F, ?_⟩
      rcases hbt with ⟨hlt, hlt'⟩ | ⟨hle, hlt⟩
      · refine .inl ⟨hlt, fun x hx => ?_⟩
        rcases Finset.mem_insert.mp hx with rfl | hx
        · exact .inr le_rfl
        · rcases lt_or_ge p x with hpx | hxp
          · exact .inr (hlt'.le.trans (h.gap hp hx hpx).2)
          · exact .inl hxp
      · rcases hlt with hlt | hlt
        · refine .inl ⟨hlt, fun x hx => ?_⟩
          rcases Finset.mem_insert.mp hx with rfl | hx
          · exact .inr le_rfl
          · exact .inl (h.wrap hp hle hx).1
        · refine .inr ⟨fun x hx => ?_, fun x hx => ?_⟩
          · rcases Finset.mem_insert.mp hx with rfl | hx
            · exact hlt.le.trans hle
            · exact (h.wrap hp hle hx).1
          · rcases Finset.mem_insert.mp hx with rfl | hx
            · exact le_rfl
            · exact hlt.le.trans (h.wrap hp hle hx).2
    · rw [Function.update_of_ne hfp, Function.update_of_ne hfb]
      refine ⟨Finset.mem_insert_of_mem (h f hf).1, ?_⟩
      rcases (h f hf).2 with ⟨hlt, hgap⟩ | ⟨hlast, hfirst⟩
      · refine .inl ⟨hlt, fun x hx => ?_⟩
        rcases Finset.mem_insert.mp hx with rfl | hx
        · -- the new element lies elsewhere, between `p` and the next
          rcases hbt with ⟨hpx, hxq⟩ | ⟨hle, hpx | hxq⟩
          · rcases lt_or_gt_of_ne hfp with hfp | hpf
            · exact .inr ((h.gap hf hp hfp).2.trans hpx.le)
            · exact .inl (hxq.le.trans (h.gap hp hf hpf).2)
          · exact .inr ((h.wrap hp hle (h f hf).1).1.trans hpx.le)
          · exact .inl (hxq.le.trans (h.wrap hp hle hf).2)
        · exact hgap x hx
      · -- `f` is the last, and so is not `p`
        have hpf : p < f := lt_of_le_of_ne (hlast p hp) (Ne.symm hfp)
        refine .inr ⟨fun x hx => ?_, fun x hx => ?_⟩
        · rcases Finset.mem_insert.mp hx with rfl | hx
          · rcases hbt with ⟨_, hxq⟩ | ⟨hle, _⟩
            · exact hxq.le.trans (h.gap hp hf hpf).2
            · exact absurd hpf (not_lt_of_ge (h.wrap hp hle hf).1)
          · exact hlast x hx
        · rcases Finset.mem_insert.mp hx with rfl | hx
          · rcases hbt with ⟨hpx, _⟩ | ⟨hle, _⟩
            · exact (hfirst p hp).trans hpx.le
            · exact absurd hpf (not_lt_of_ge (h.wrap hp hle hf).1)
          · exact hfirst x hx

theorem SortedRing.erase (h : SortedRing next F) (hp : p ∈ F) (hne : next p ≠ p) :
    SortedRing (Function.update next p (next (next p))) (F.erase (next p)) := by
  have hq := (h p hp).1
  intro f hf
  obtain ⟨hfq, hf⟩ := Finset.mem_erase.mp hf
  by_cases hfp : f = p
  · rw [hfp, Function.update_self]
    have hqq := h _ hq
    have hloop : next (next p) ≠ next p := by
      intro he
      have hlast := h.wrap hq he.le hp
      rw [he] at hlast
      exact hne (le_antisymm hlast.2 hlast.1)
    refine ⟨Finset.mem_erase.mpr ⟨hloop, hqq.1⟩, ?_⟩
    rcases lt_or_gt_of_ne hne with hlt | hlt
    · -- the first is taken out
      have hle := hlt.le
      by_cases hup : next p < next (next p)
      · refine .inr ⟨fun x hx => (h.wrap hp hle (Finset.mem_of_mem_erase hx)).1, fun x hx => ?_⟩
        have hqx := lt_of_le_of_ne (h.wrap hp hle (Finset.mem_of_mem_erase hx)).2
          (Ne.symm (Finset.ne_of_mem_erase hx))
        exact (h.gap hq (Finset.mem_of_mem_erase hx) hqx).2
      · exact absurd hlt (not_lt_of_ge (h.wrap hq (le_of_not_gt hup) hp).1)
    · by_cases hup : next p < next (next p)
      · refine .inl ⟨hlt.trans hup, fun x hx => ?_⟩
        have hxF := Finset.mem_of_mem_erase hx
        rcases lt_or_ge p x with hpx | hxp
        · have hqx := lt_of_le_of_ne (h.gap hp hxF hpx).2 (Ne.symm (Finset.ne_of_mem_erase hx))
          exact .inr (h.gap hq hxF hqx).2
        · exact .inl hxp
      · -- the last is taken out
        have hle := le_of_not_gt hup
        refine .inr ⟨fun x hx => ?_, fun x hx => (h.wrap hq hle (Finset.mem_of_mem_erase hx)).2⟩
        have hxF := Finset.mem_of_mem_erase hx
        by_contra hpx
        have hqx := (h.gap hp hxF (lt_of_not_ge hpx)).2
        exact Finset.ne_of_mem_erase hx (le_antisymm (h.wrap hq hle hxF).1 hqx)
  · rw [Function.update_of_ne hfp]
    have hff := h f hf
    have hnq : next f ≠ next p := fun he => hfp (h.injective hf hp he)
    refine ⟨Finset.mem_erase.mpr ⟨hnq, hff.1⟩, ?_⟩
    rcases hff.2 with ⟨hlt, hgap⟩ | ⟨hlast, hfirst⟩
    · exact .inl ⟨hlt, fun x hx => hgap x (Finset.mem_of_mem_erase hx)⟩
    · exact .inr ⟨fun x hx => hlast x (Finset.mem_of_mem_erase hx),
        fun x hx => hfirst x (Finset.mem_of_mem_erase hx)⟩

/-- From one element up to a greater one, in at most as many steps as there are elements. -/
theorem SortedRing.climb (h : SortedRing next F) (hp : p ∈ F) (hq : q ∈ F) (hle : p ≤ q) :
    ∃ k, k ≤ F.card ∧ next^[k] p = q := by
  have hclimb : ∀ n p, p ∈ F → p ≤ q → (F.filter fun x => p < x).card = n →
      ∃ k, k ≤ n ∧ next^[k] p = q := by
    intro n
    induction n using Nat.strong_induction_on with
    | _ n ih =>
      intro p hp hle hcard
      rcases eq_or_lt_of_le hle with rfl | hlt
      · exact ⟨0, Nat.zero_le n, rfl⟩
      · obtain ⟨hup, hnext⟩ := h.gap hp hq hlt
        have hless : (F.filter fun x => next p < x).card < n := by
          rw [← hcard]
          apply Finset.card_lt_card
          constructor
          · intro x hx
            rw [Finset.mem_filter] at hx ⊢
            exact ⟨hx.1, hup.trans hx.2⟩
          · intro hsub
            have hmem := hsub (Finset.mem_filter.mpr ⟨(h p hp).1, hup⟩)
            exact absurd (Finset.mem_filter.mp hmem).2 (lt_irrefl _)
        obtain ⟨k, hk, hiter⟩ := ih _ hless (next p) (h p hp).1 hnext rfl
        exact ⟨k + 1, by omega, hiter⟩
  obtain ⟨k, hk, hiter⟩ := hclimb _ p hp hle rfl
  exact ⟨k, hk.trans (Finset.card_le_card (Finset.filter_subset _ F)), hiter⟩

/-- Every element is on the way. -/
theorem SortedRing.reach (h : SortedRing next F) (hp : p ∈ F) (hq : q ∈ F) :
    ∃ k, k ≤ 2 * F.card + 1 ∧ next^[k] p = q := by
  have hlast := F.max'_mem ⟨p, hp⟩
  obtain ⟨i, hi, hup⟩ := h.climb hp hlast (F.le_max' p hp)
  have hwrap : next (F.max' ⟨p, hp⟩) ≤ F.max' ⟨p, hp⟩ := F.le_max' _ (h _ hlast).1
  obtain ⟨j, hj, hdown⟩ := h.climb (h _ hlast).1 hq (h.wrap hlast hwrap hq).2
  refine ⟨j + 1 + i, by omega, ?_⟩
  rw [Function.iterate_add_apply, hup, Function.iterate_add_apply]
  exact hdown

theorem SortedRing.iterate_mem (h : SortedRing next F) (hp : p ∈ F) (k : Nat) : next^[k] p ∈ F := by
  induction k with
  | zero => exact hp
  | succ k ih =>
    rw [Function.iterate_succ_apply']
    exact (h _ ih).1

/-- Every new element has a place. -/
theorem SortedRing.exists_between (h : SortedRing next F) (hp : p ∈ F) (hb : b ∉ F) :
    ∃ f ∈ F, Between f b (next f) := by
  by_cases hbelow : ∃ x ∈ F, x < b
  · obtain ⟨x, hx, hlt⟩ := hbelow
    have hne : (F.filter fun x => x < b).Nonempty := ⟨x, Finset.mem_filter.mpr ⟨hx, hlt⟩⟩
    obtain ⟨f, hf⟩ : ∃ f, f = (F.filter fun x => x < b).max' hne := ⟨_, rfl⟩
    have hmem := Finset.max'_mem _ hne
    rw [← hf] at hmem
    obtain ⟨hfF, hfb⟩ := Finset.mem_filter.mp hmem
    refine ⟨f, hfF, ?_⟩
    rcases lt_or_ge f (next f) with hup | hle
    · refine .inl ⟨hfb, ?_⟩
      by_contra hnb
      have hnF := (h f hfF).1
      have hlt' : next f < b := lt_of_le_of_ne (le_of_not_gt hnb) fun he => hb (he ▸ hnF)
      have hmax := (F.filter fun x => x < b).le_max' (next f) (Finset.mem_filter.mpr ⟨hnF, hlt'⟩)
      rw [← hf] at hmax
      exact absurd hup (not_lt_of_ge hmax)
    · exact .inr ⟨hle, .inl hfb⟩
  · have hlast := F.max'_mem ⟨p, hp⟩
    have hwrap : next (F.max' ⟨p, hp⟩) ≤ F.max' ⟨p, hp⟩ := F.le_max' _ (h _ hlast).1
    refine ⟨_, hlast, .inr ⟨hwrap, .inr ?_⟩⟩
    have hnF := (h _ hlast).1
    exact lt_of_le_of_ne (le_of_not_gt fun hlt => hbelow ⟨_, hnF, hlt⟩) fun he => hb (he ▸ hnF)

end

end PbsCow

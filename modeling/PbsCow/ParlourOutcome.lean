import PbsCow.ParlourToppings

namespace PbsCow
set_option autoImplicit true

namespace Parlour

open Pthread

/-- The place of the ice cream among those of its customer. -/
def Cone.rank : Cone → Option Int
  | .counted _ _ rank => some rank
  | .completed _ _ rank _ => some rank
  | .retired _ _ rank _ => some rank
  | _ => none

/-- Nothing is printed about a customer whom `exit_handler` has found unserved, and `exit_handler` finds
only customers unserved who have not arrived or who have the ingredients. -/
def Closing (q : Config) (t : Tid) (k : Code) (s : Memory) : Prop :=
  (∀ i x f k', t ≠ .counter → x ≠ .notServiced → k = say i x f k' → s.data.unserved i = none) ∧
  ∀ i, t = .exit → k = examine q i → (q.num_icecream i : Int) > s.data.done i →
    (s.data.visit i).stage = .coming ∨ (s.data.visit i).stage = .given

structure OutcomeInv (q : Config) (s : Memory) : Prop where
  one : ∀ i, (s.data.said i).length ≤ 1
  found : ∀ i x, s.data.unserved i = some x → x = .coming ∨ x = .given
  quiet : ∀ i, s.data.unserved i ≠ none → ∀ x ∈ s.data.said i, x = .notServiced
  rank_le : ∀ j r, (s.data.cone j).rank = some r → r ≤ s.data.done (q.buyer j)
  rank_inj : ∀ j j' r, (s.data.cone j).rank = some r → (s.data.cone j').rank = some r →
    q.buyer j = q.buyer j' → j = j'
  collected : ∀ i, .collected ∈ s.data.said i → ∃ j m start stop, q.buyer j = i ∧
    s.data.cone j = .retired m start (q.num_icecream i) stop

variable {q : Config} {D : Tid → Code → Memory → Prop} {s s' : Memory} {d : Data}

/-- Nothing happens that an outcome depends on. -/
theorem OutcomeInv.same (hi : OutcomeInv q s) (hs : s'.data.said = s.data.said)
    (hu : s'.data.unserved = s.data.unserved) (hd : s'.data.done = s.data.done)
    (hc : s'.data.cone = s.data.cone) : OutcomeInv q s' := by
  refine ⟨?_, ?_, ?_, ?_, ?_, ?_⟩
  · rw [hs]
    exact hi.one
  · rw [hu]
    exact hi.found
  · rw [hu, hs]
    exact hi.quiet
  · rw [hc, hd]
    exact hi.rank_le
  · rw [hc]
    exact hi.rank_inj
  · rw [hs, hc]
    exact hi.collected

/-- Nothing has been printed about a customer who is on the way. -/
theorem SaidInv.nothing (hf : SaidInv q s) (hv : VisitInv q s) (hu : s.data.unserved i = none)
    (hx : (s.data.visit i).stage.final = false) : s.data.said i = [] := by
  refine List.eq_nil_iff_forall_not_mem.2 fun x hm => ?_
  have hfit := hf.fits i x hm
  cases x with
  | notServiced => exact hv.unserved i hm hu
  | away => exact absurd (Outcome.fits_of_open hfit hx : Outcome.fits .away .coming = true) (by decide)
  | unfulfilled =>
    exact absurd (Outcome.fits_of_open hfit hx : Outcome.fits .unfulfilled .coming = true) (by decide)
  | collected =>
    exact absurd (Outcome.fits_of_open hfit hx : Outcome.fits .collected .coming = true) (by decide)

/-- A message is printed about customer `i`, of whom nothing has been printed. -/
theorem OutcomeInv.tell (hi : OutcomeInv q s) (h : s.data.said i = [])
    (hs : d.said = Function.update s.data.said i (x :: s.data.said i))
    (hu : d.unserved = s.data.unserved) (hd : d.done = s.data.done)
    (hq : s.data.unserved i ≠ none → x = .notServiced)
    (hrank : ∀ j, (d.cone j).rank = (s.data.cone j).rank)
    (hover : ∀ j m start r stop, s.data.cone j = .retired m start r stop →
      d.cone j = .retired m start r stop)
    (hx : x = .collected → ∃ j m start stop, q.buyer j = i ∧
      d.cone j = .retired m start (q.num_icecream i) stop) : OutcomeInv q { s with data := d } := by
  refine ⟨fun k => ?_, fun k y hk => ?_, fun k hk y hm => ?_, fun j r hr => ?_,
    fun j j' r hr hr' => ?_, fun k hm => ?_⟩
  · dsimp only
    rw [hs]
    by_cases hk : k = i
    · subst hk
      rw [Function.update_self, h]
      exact Nat.le_refl 1
    · rw [Function.update_of_ne hk]
      exact hi.one k
  · exact hi.found k y (hu ▸ hk)
  · dsimp only at hk hm
    rw [hu] at hk
    rw [hs] at hm
    rcases mem_update_said hm with hm | ⟨rfl, rfl⟩
    · exact hi.quiet k hk y hm
    · exact hq hk
  · dsimp only at hr ⊢
    rw [hd]
    exact hi.rank_le j r (hrank j ▸ hr)
  · exact hi.rank_inj j j' r (hrank j ▸ hr) (hrank j' ▸ hr')
  · dsimp only at hm
    rw [hs] at hm
    rcases mem_update_said hm with hm | ⟨rfl, he⟩
    · obtain ⟨j, m, start, stop, hb, hc⟩ := hi.collected k hm
      exact ⟨j, m, start, stop, hb, hover j m start _ stop hc⟩
    · exact hx he.symm

/-- An ice cream that is not over gets further, and keeps its place. -/
theorem OutcomeInv.freeze (hi : OutcomeInv q s) (h : ∀ m start r stop, s.data.cone j ≠ .retired m start r stop)
    (hc : d.cone = Function.update s.data.cone j x) (hx : x.rank = (s.data.cone j).rank)
    (hs : d.said = s.data.said) (hu : d.unserved = s.data.unserved) (hd : d.done = s.data.done) :
    OutcomeInv q { s with data := d } := by
  have hrank (k : Nat) : (d.cone k).rank = (s.data.cone k).rank := by
    rw [hc]
    by_cases hk : k = j
    · rw [hk, Function.update_self, hx]
    · rw [Function.update_of_ne hk]
  refine ⟨fun k => hs ▸ hi.one k, fun k y hk => hi.found k y (hu ▸ hk), fun k hk y hm => ?_,
    fun k r hr => ?_, fun k k' r hr hr' => ?_, fun k hm => ?_⟩
  · exact hi.quiet k (hu ▸ hk) y (hs ▸ hm)
  · dsimp only at hr ⊢
    rw [hd]
    exact hi.rank_le k r (hrank k ▸ hr)
  · exact hi.rank_inj k k' r (hrank k ▸ hr) (hrank k' ▸ hr')
  · obtain ⟨k', m, start, stop, hb, hover⟩ := hi.collected k (hs ▸ hm)
    refine ⟨k', m, start, stop, hb, ?_⟩
    have hne : k' ≠ j := by
      rintro rfl
      exact h m start _ stop hover
    dsimp only
    rw [hc, Function.update_of_ne hne]
    exact hover

/-- An ice cream is ready to be handed over, and is the last one so far of its customer. -/
theorem OutcomeInv.count (hi : OutcomeInv q s) (h : s.data.cone j = .released m curr)
    (hc : d.cone = Function.update s.data.cone j (.counted m curr (s.data.done (q.buyer j) + 1)))
    (hd : d.done = Function.update s.data.done (q.buyer j) (s.data.done (q.buyer j) + 1))
    (hs : d.said = s.data.said) (hu : d.unserved = s.data.unserved) :
    OutcomeInv q { s with data := d } := by
  have hle (i : Nat) : s.data.done i ≤ d.done i := by
    rw [hd]
    by_cases he : i = q.buyer j
    · rw [he, Function.update_self]
      exact Int.le_add_one (Int.le_refl _)
    · rw [Function.update_of_ne he]
  have hnew : (d.cone j).rank = some (s.data.done (q.buyer j) + 1) := by
    rw [hc, Function.update_self]
    rfl
  have hold {k} (hk : k ≠ j) : d.cone k = s.data.cone k := by rw [hc, Function.update_of_ne hk]
  -- The new rank is above those of all other ice creams of the customer.
  have hlt {k r} (hk : k ≠ j) (hr : (d.cone k).rank = some r) (hb : q.buyer k = q.buyer j) :
      r ≠ s.data.done (q.buyer j) + 1 := by
    rw [hold hk] at hr
    have := hi.rank_le k r hr
    rw [hb] at this
    omega
  refine ⟨fun k => hs ▸ hi.one k, fun k y hk => hi.found k y (hu ▸ hk),
    fun k hk y hm => hi.quiet k (hu ▸ hk) y (hs ▸ hm), fun k r hr => ?_,
    fun k k' r hr hr' hb => ?_, fun k hm => ?_⟩
  · dsimp only at hr ⊢
    by_cases hk : k = j
    · subst hk
      rw [hnew] at hr
      cases hr
      rw [hd, Function.update_self]
    · rw [hold hk] at hr
      exact Int.le_trans (hi.rank_le k r hr) (hle _)
  · dsimp only at hr hr'
    by_cases hk : k = j
    · by_cases hk' : k' = j
      · rw [hk, hk']
      · subst hk
        rw [hnew] at hr
        cases hr
        exact (hlt hk' hr' hb.symm rfl).elim
    · by_cases hk' : k' = j
      · subst hk'
        rw [hnew] at hr'
        cases hr'
        exact (hlt hk hr hb rfl).elim
      · rw [hold hk] at hr
        rw [hold hk'] at hr'
        exact hi.rank_inj k k' r hr hr' hb
  · obtain ⟨k', m', start', stop', hb, hover⟩ := hi.collected k (hs ▸ hm)
    refine ⟨k', m', start', stop', hb, ?_⟩
    have hne : k' ≠ j := by
      rintro rfl
      rw [h] at hover
      cases hover
    exact (hold hne).trans hover

/-- The ice creams of a customer who is refused are not made. -/
theorem OutcomeInv.settle (hi : OutcomeInv q s) (hf : SaidInv q s) (hv : VisitInv q s)
    (h : (s.data.visit i).stage = .unfulfilled) :
    OutcomeInv q { s with data := { s.data with
      done := Function.update s.data.done i (q.num_icecream i) } } := by
  refine ⟨hi.one, hi.found, hi.quiet, fun j r hr => ?_, hi.rank_inj, hi.collected⟩
  have hne : q.buyer j ≠ i := by
    rintro rfl
    have hin : s.data.ingredients (q.buyer j) = 1 := by
      refine hf.cones j fun hw => ?_
      dsimp only at hr
      rw [hw] at hr
      cases hr
    have hgiven := hv.stage_given hin
    rw [h] at hgiven
    cases hgiven
  dsimp only at hr ⊢
  rw [Function.update_of_ne hne]
  exact hi.rank_le j r hr

/-- `exit_handler` finds a customer unserved. -/
theorem OutcomeInv.examine (hi : OutcomeInv q s) (hf : SaidInv q s)
    (hn : (q.num_icecream i : Int) > s.data.done i)
    (hx : (s.data.visit i).stage = .coming ∨ (s.data.visit i).stage = .given) :
    OutcomeInv q { s with data := { s.data with
      unserved := Function.update s.data.unserved i (some (s.data.visit i).stage) } } := by
  have hquiet (x : Outcome) (hm : x ∈ s.data.said i) : x = .notServiced := by
    have hfit := hf.fits i x hm
    rcases hx with hx | hx
    · rw [hx] at hfit
      cases x with
      | notServiced => rfl
      | _ => cases hfit
    · rw [hx] at hfit
      cases x with
      | notServiced => rfl
      | collected =>
        obtain ⟨j, m, start, stop, rfl, hover⟩ := hi.collected i hm
        have hrank := hi.rank_le j (q.num_icecream (q.buyer j)) (by rw [hover]; rfl)
        exact absurd hrank (Int.not_le.2 hn)
      | _ => cases hfit
  refine ⟨hi.one, fun k y hk => ?_, fun k hk y hm => ?_, hi.rank_le, hi.rank_inj, hi.collected⟩
  · dsimp only at hk
    by_cases he : k = i
    · rw [he, Function.update_self] at hk
      cases hk
      exact hx
    · rw [Function.update_of_ne he] at hk
      exact hi.found k y hk
  · dsimp only at hk hm
    by_cases he : k = i
    · rw [he] at hm
      exact hquiet y hm
    · rw [Function.update_of_ne he] at hk
      exact hi.quiet k hk y hm

/-- Who collects the last ice cream has been told nothing. -/
theorem OutcomeInv.uncollected (hi : OutcomeInv q s) (hf : SaidInv q s) (hv : VisitInv q s)
    (h : s.data.cone j = .completed m curr (q.num_icecream (q.buyer j)) stop)
    (hu : s.data.unserved (q.buyer j) = none) : s.data.said (q.buyer j) = [] := by
  have hgiven := hv.stage_given (hf.given h (by simp))
  refine List.eq_nil_iff_forall_not_mem.2 fun x hm => ?_
  have hfit := hf.fits _ x hm
  rw [hgiven] at hfit
  cases x with
  | notServiced => exact hv.unserved _ hm hu
  | collected =>
    obtain ⟨j', m', start', stop', hb, hover⟩ := hi.collected _ hm
    have hj : j = j' := hi.rank_inj j j' _ (by rw [h]; rfl) (by rw [hover]; rfl) hb.symm
    rw [← hj, h] at hover
    cases hover
  | _ => cases hfit

/-- A customer collects the last ice cream. -/
theorem OutcomeInv.collect (hi : OutcomeInv q s) (hf : SaidInv q s) (hv : VisitInv q s)
    (h : s.data.cone j = .completed m curr r stop) (hn : r = (q.num_icecream (q.buyer j) : Int))
    (hu : s.data.unserved (q.buyer j) = none) :
    OutcomeInv q { s with data := { s.data.setCone j (.retired m curr r stop) with
      said := Function.update s.data.said (q.buyer j) (.collected :: s.data.said (q.buyer j)) } } := by
  subst hn
  refine hi.tell (hi.uncollected hf hv h hu) rfl rfl rfl (fun hne => (hne hu).elim)
    (fun k => ?_) (fun k m' curr' r stop' hc => ?_) fun _ => ?_
  · by_cases hk : k = j
    · subst hk
      simp [Data.setCone, h, Cone.rank]
    · simp [Data.setCone, hk]
  · have hk : k ≠ j := by
      rintro rfl
      rw [h] at hc
      cases hc
    simpa [Data.setCone, hk] using hc
  · exact ⟨j, m, curr, stop, rfl, Function.update_self ..⟩

theorem OutcomeInv.write (hi : OutcomeInv q s) (hf : SaidInv q s) (hv : VisitInv q s)
    (h : Write q (Closing q) t s d) : OutcomeInv q { s with data := d } := by
  cases h with
  | away h hd =>
    have hu := hd.1 _ _ _ _ (by simp) (by simp) rfl
    refine hi.tell (hf.nothing hv hu (by rw [h]; rfl)) rfl rfl rfl (fun hne => (hne hu).elim)
      (fun _ => rfl) (fun _ _ _ _ _ hc => hc) fun hx => ?_
    cases hx
  | unfulfilled h hd =>
    have hu := hd.1 _ _ _ _ (by simp) (by simp) rfl
    refine hi.tell (hf.nothing hv hu (by rw [h]; rfl)) rfl rfl rfl (fun hne => (hne hu).elim)
      (fun _ => rfl) (fun _ _ _ _ _ hc => hc) fun hx => ?_
    cases hx
  | settle h ho => exact hi.settle hf hv (by rw [h])
  | claim h ho hm hin hs hp => exact hi.freeze (by simp [h]) rfl (by rw [h]; rfl) rfl rfl rfl
  | start h ht => exact hi.freeze (by simp [h]) rfl (by rw [h]; rfl) rfl rfl rfl
  | release h ho ht => exact hi.freeze (by simp [h]) rfl (by rw [h]; rfl) rfl rfl rfl
  | count h ho => exact hi.count h rfl rfl rfl rfl
  | complete h => exact hi.freeze (by simp [h]) rfl (by rw [h]; rfl) rfl rfl rfl
  | retired h => exact hi.freeze (by simp [h]) rfl (by rw [h]; rfl) rfl rfl rfl
  | collect h hn hd => exact hi.collect hf hv h hn (hd.1 _ _ _ _ (by simp) (by simp) rfl)
  | examine h hn hd => exact hi.examine hf hn (hd.2 _ rfl rfl hn)
  | notServiced h hn hd =>
    refine hi.tell (List.eq_nil_iff_forall_not_mem.2 fun x hm => ?_) rfl rfl rfl (fun _ => rfl)
      (fun _ => rfl) (fun _ _ _ _ _ hc => hc) fun hx => ?_
    · exact hn (hi.quiet _ h x hm ▸ hm)
    · cases hx
  | _ => exact hi.same rfl rfl rfl rfl

theorem OutcomeInv.act (hi : OutcomeInv q s) (hf : SaidInv q s) (hv : VisitInv q s)
    (h : Act q (Closing q) t s s') : OutcomeInv q s' := by
  cases h with
  | lock h => exact hi.same (by rw [h.data]) (by rw [h.data]) (by rw [h.data]) (by rw [h.data])
  | write hl h => exact hi.write hf hv h
  | _ => exact hi.same rfl rfl rfl rfl

theorem OutcomeInv.start (q : Config) : OutcomeInv q (start q).mem := by
  refine ⟨fun _ => Nat.zero_le 1, fun _ _ h => ?_, fun _ h => (h rfl).elim, fun _ _ h => ?_,
    fun _ _ _ h => ?_, fun _ h => ?_⟩
  all_goals cases h

/-- One place, and two customers who want no toppings. -/
def hurried : Config where
  k := 1
  mac := [⟨0, 0⟩]
  fav := [("vanilla", 1)]
  top := []
  arr := [⟨1, 0, [⟨"vanilla", []⟩]⟩, ⟨2, 0, [⟨"vanilla", []⟩]⟩]

end Parlour

end PbsCow

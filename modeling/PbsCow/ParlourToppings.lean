import PbsCow.ParlourGates
import PbsCow.ParlourMap
import Mathlib.Algebra.BigOperators.Intervals

namespace PbsCow
set_option autoImplicit true

namespace Parlour

/-- What the customers who have their ingredients have taken of a topping. -/
def taken (q : Config) (d : Data) (p : String) : Int :=
  ∑ i ∈ Finset.range q.tot_customer, if d.ingredients i = 1 then ((q.toppings i).count p : Int) else 0

/-- The stock of a topping that was listed with the quantity `Q`. -/
structure StockInv (q : Config) (p : String) (Q : Int) (d : Data) : Prop where
  limited : 0 ≤ Q → 0 ≤ find d.map p ∧ Q = find d.map p + taken q d p
  unlimited : Q = -1 → find d.map p = -1

variable {q : Config} {D : Tid → Code → Memory → Prop} {s s' : Memory} {d : Data}

theorem taken_give (hi : i < q.tot_customer) (hne : d.ingredients i ≠ 1)
    (hd : d'.ingredients = Function.update d.ingredients i 1) (p : String) :
    taken q d' p = taken q d p + (q.toppings i).count p := by
  have hm : i ∈ Finset.range q.tot_customer := Finset.mem_range.2 hi
  rw [taken, taken, ← Finset.add_sum_erase _ _ hm, ← Finset.add_sum_erase _ _ hm, hd,
    Function.update_self, if_pos rfl, if_neg hne, Int.zero_add, Int.add_comm]
  congr 1
  refine Finset.sum_congr rfl fun j hj => ?_
  rw [Function.update_of_ne (Finset.ne_of_mem_erase hj)]

theorem taken_congr (h : ∀ i, d'.ingredients i = 1 ↔ d.ingredients i = 1) (p : String) :
    taken q d' p = taken q d p := by
  refine Finset.sum_congr rfl fun i _ => ?_
  simp only [h i]

theorem StockInv.same (hi : StockInv q p Q d) (hm : d'.map = d.map)
    (h : ∀ i, d'.ingredients i = 1 ↔ d.ingredients i = 1) : StockInv q p Q d' := by
  refine ⟨fun hq => ?_, fun hq => ?_⟩
  · rw [hm, taken_congr h]
    exact hi.limited hq
  · rw [hm]
    exact hi.unlimited hq

/-- A customer gets the ingredients. -/
theorem StockInv.give (hi : StockInv q p Q d) (ht : Tallies (q.toppings i) (q.want i))
    (he : enough d.map (q.want i) = true) (hn : i < q.tot_customer) (hne : d.ingredients i ≠ 1)
    (hm : d'.map = deduct d.map (q.want i))
    (hd : d'.ingredients = Function.update d.ingredients i 1) : StockInv q p Q d' := by
  refine ⟨fun hq => ?_, fun hq => ?_⟩
  · obtain ⟨hpos, hsum⟩ := hi.limited hq
    obtain ⟨hfind, hpos'⟩ := find_deduct_tallies ht he hpos
    rw [hm, taken_give hn hne hd]
    refine ⟨hpos', ?_⟩
    rw [hfind, hsum]
    omega
  · rw [hm]
    exact find_deduct_unlimited ht.nodup (hi.unlimited hq)

theorem update_zero_iff {f : Nat → Int} (h : f i ≠ 1) :
    Function.update f i 0 k = 1 ↔ f k = 1 := by
  by_cases hk : k = i
  · subst hk
    simp [h]
  · rw [Function.update_of_ne hk]

theorem StockInv.write (hi : StockInv q p Q s.data) (hv : VisitInv q s) (hl : Live q t s)
    (ht : ∀ i, Tallies (q.toppings i) (q.want i)) (h : Write q D t s d) : StockInv q p Q d := by
  have hn {i} (ht : t = .arrival i) : i < q.tot_customer := by
    have := hl.created
    rw [ht] at this
    exact of_decide_eq_true this
  cases h with
  | @give i _ h ho he =>
    refine hi.give (ht i) he (hn rfl) ?_ rfl rfl
    rw [hv.ingredients i, h]
    decide
  | exclude h hx =>
    refine hi.same rfl fun k => update_zero_iff ?_
    rw [hv.ingredients, h]
    rcases hx with rfl | rfl <;> decide
  | _ => exact hi.same rfl fun _ => Iff.rfl

theorem StockInv.act (hi : StockInv q p Q s.data) (hv : VisitInv q s)
    (ht : ∀ i, Tallies (q.toppings i) (q.want i)) (h : Act q D t s s') :
    StockInv q p Q s'.data := by
  cases h with
  | lock h => exact h.data ▸ hi
  | write hl h => exact hi.write hv hl ht h
  | _ => exact hi.same rfl fun _ => Iff.rfl

theorem StockInv.start (hsize : q.fav.length + q.top.length ≤ MAX_SIZE)
    (h : lastListed q.top p = some Q) : StockInv q p Q (start q).mem.data := by
  have hlen : (q.fav ++ q.top).length ≤ MAX_SIZE := by
    rw [List.length_append]
    exact hsize
  have hfind : find (Parlour.start q).mem.data.map p = Q :=
    find_listed (q.fav ++ q.top) hlen (lastListed_append q.fav q.top h)
  have htaken : taken q (Parlour.start q).mem.data p = 0 :=
    Finset.sum_eq_zero fun i _ => if_neg (show ¬ (-1 : Int) = 1 by decide)
  refine ⟨fun hq => ?_, fun hq => ?_⟩
  · rw [hfind, htaken]
    exact ⟨hq, (Int.add_zero Q).symm⟩
  · rw [hfind, hq]

/-- What may have been printed about a customer who is so far. -/
def Outcome.fits : Outcome → Stage → Bool
  | .away, x => x == .away
  | .unfulfilled, x => x == .unfulfilled
  | .collected, x => x == .given
  | .notServiced, _ => true

/-- A customer at such a stage stays there. -/
def Stage.final : Stage → Bool
  | .given => true
  | .unfulfilled => true
  | .away => true
  | _ => false

theorem Outcome.fits_of_open {y : Outcome} (h : y.fits x = true) (hx : x.final = false) :
    y.fits x' = true := by
  cases y <;> cases x <;> first | rfl | contradiction

/-- What has been printed fits what became of the customers, and only the ice creams of those who have
the ingredients are made. -/
structure SaidInv (q : Config) (s : Memory) : Prop where
  fits : ∀ i, ∀ x ∈ s.data.said i, x.fits (s.data.visit i).stage = true
  cones : ∀ j, s.data.cone j ≠ .waiting → s.data.ingredients (q.buyer j) = 1

/-- A customer gets further. -/
theorem SaidInv.move (hi : SaidInv q s) (hv : d.visit = Function.update s.data.visit i v)
    (hx : v.stage = (s.data.visit i).stage ∨ (s.data.visit i).stage.final = false)
    (hs : d.said = Function.update s.data.said i l)
    (hl : ∀ x ∈ l, x ∈ s.data.said i ∨ x.fits v.stage = true) (hc : d.cone = s.data.cone)
    (hin : ∀ k, s.data.ingredients k = 1 → d.ingredients k = 1) :
    SaidInv q { s with data := d } := by
  refine ⟨fun k x h => ?_, fun j hj => ?_⟩
  · dsimp only at h ⊢
    rw [hv]
    rw [hs] at h
    by_cases hk : k = i
    · subst hk
      rw [Function.update_self] at h ⊢
      rcases hl x h with hold | hnew
      · have hfit := hi.fits k x hold
        rcases hx with he | he
        · rw [he]
          exact hfit
        · exact Outcome.fits_of_open hfit he
      · exact hnew
    · rw [Function.update_of_ne hk] at h ⊢
      exact hi.fits k x h
  · dsimp only at hj ⊢
    rw [hc] at hj
    exact hin _ (hi.cones j hj)

/-- A customer gets further and is told nothing. -/
theorem SaidInv.silent (hi : SaidInv q s) (hv : d.visit = Function.update s.data.visit i v)
    (hx : v.stage = (s.data.visit i).stage ∨ (s.data.visit i).stage.final = false)
    (hs : d.said = s.data.said) (hc : d.cone = s.data.cone)
    (hin : ∀ k, s.data.ingredients k = 1 → d.ingredients k = 1) :
    SaidInv q { s with data := d } :=
  hi.move hv hx (l := s.data.said i) (by rw [hs, Function.update_eq_self]) (fun _ h => .inl h) hc hin

/-- No customer gets further. -/
theorem SaidInv.same (hi : SaidInv q s) (hv : s'.data.visit = s.data.visit)
    (hs : ∀ i, ∀ x ∈ s'.data.said i, x ∈ s.data.said i ∨ x.fits (s.data.visit i).stage = true)
    (hc : ∀ j, s'.data.cone j ≠ .waiting → s.data.cone j ≠ .waiting ∨
      s.data.ingredients (q.buyer j) = 1)
    (hin : s'.data.ingredients = s.data.ingredients) : SaidInv q s' := by
  refine ⟨fun k x h => ?_, fun j hj => ?_⟩
  · rw [hv]
    rcases hs k x h with h | h
    · exact hi.fits k x h
    · exact h
  · rw [hin]
    rcases hc j hj with h | h
    · exact hi.cones j h
    · exact h

/-- An ice cream of a customer who has the ingredients gets further. -/
theorem SaidInv.freeze (hi : SaidInv q s) (h : s.data.ingredients (q.buyer j) = 1)
    (hv : d.visit = s.data.visit)
    (hs : ∀ i, ∀ x ∈ d.said i, x ∈ s.data.said i ∨ x.fits (s.data.visit i).stage = true)
    (hc : d.cone = Function.update s.data.cone j x) (hin : d.ingredients = s.data.ingredients) :
    SaidInv q { s with data := d } := by
  refine hi.same hv hs (fun k hk => ?_) hin
  by_cases he : k = j
  · rw [he]
    exact .inr h
  · dsimp only at hk
    rw [hc, Function.update_of_ne he] at hk
    exact .inl hk

theorem SaidInv.given (hi : SaidInv q s) (h : s.data.cone j = x) (hx : x ≠ .waiting) :
    s.data.ingredients (q.buyer j) = 1 := hi.cones j (h ▸ hx)

theorem VisitInv.stage_given (hv : VisitInv q s) (h : s.data.ingredients i = 1) :
    (s.data.visit i).stage = .given := by
  rw [hv.ingredients i, Visit.ingredients] at h
  by_contra hne
  rw [if_neg hne] at h
  cases he : (s.data.visit i).excluded <;> simp [he] at h

theorem SaidInv.write (hi : SaidInv q s) (hv : VisitInv q s) (h : Write q D t s d) :
    SaidInv q { s with data := d } := by
  have hkeep (k : Nat) (hk : s.data.ingredients k = 1) : d.ingredients k = 1 := by
    rw [h.ingredients hv (by rw [hk]; decide)]
    exact hk
  cases h with
  | arrive h ht => exact hi.silent rfl (.inr (by rw [h]; rfl)) rfl rfl hkeep
  | room h hd => exact hi.silent rfl (.inr (by rw [h]; rfl)) rfl rfl hkeep
  | away h hd =>
    refine hi.move rfl (.inr (by rw [h]; rfl)) rfl (fun x hx => ?_) rfl hkeep
    rcases List.mem_cons.1 hx with rfl | hx
    · exact .inr rfl
    · exact .inl hx
  | unfulfilled h hd =>
    refine hi.move rfl (.inr (by rw [h]; rfl)) rfl (fun x hx => ?_) rfl hkeep
    rcases List.mem_cons.1 hx with rfl | hx
    · exact .inr rfl
    · exact .inl hx
  | give h ho he => exact hi.silent rfl (.inr (by rw [h]; rfl)) rfl rfl hkeep
  | cind h hx hd => exact hi.silent rfl (.inl rfl) rfl rfl hkeep
  | spawned h hx hd => exact hi.silent rfl (.inl rfl) rfl rfl hkeep
  | exclude h hx => exact hi.silent rfl (.inl rfl) rfl rfl hkeep
  | claim h ho hf hin hs hp => exact hi.freeze hin rfl (fun _ _ h => .inl h) rfl rfl
  | start h ht => exact hi.freeze (hi.given h (by simp)) rfl (fun _ _ h => .inl h) rfl rfl
  | release h ho ht => exact hi.freeze (hi.given h (by simp)) rfl (fun _ _ h => .inl h) rfl rfl
  | count h ho => exact hi.freeze (hi.given h (by simp)) rfl (fun _ _ h => .inl h) rfl rfl
  | complete h => exact hi.freeze (hi.given h (by simp)) rfl (fun _ _ h => .inl h) rfl rfl
  | retired h => exact hi.freeze (hi.given h (by simp)) rfl (fun _ _ h => .inl h) rfl rfl
  | collect h hn hd =>
    have hin := hi.given h (by simp)
    refine hi.freeze hin rfl (fun k x hx => ?_) rfl rfl
    rcases mem_update_said hx with hx | ⟨rfl, rfl⟩
    · exact .inl hx
    · refine .inr ?_
      rw [hv.stage_given hin]
      rfl
  | notServiced h hn hd =>
    refine hi.same rfl (fun k x hx => ?_) (fun _ h => .inl h) rfl
    rcases mem_update_said hx with hx | ⟨rfl, rfl⟩
    · exact .inl hx
    · exact .inr rfl
  | _ => exact hi.same rfl (fun _ _ h => .inl h) (fun _ h => .inl h) rfl

theorem SaidInv.act (hi : SaidInv q s) (hv : VisitInv q s) (h : Act q D t s s') : SaidInv q s' := by
  cases h with
  | lock h =>
    exact hi.same (by rw [h.data]) (fun _ _ hx => .inl (h.data ▸ hx))
      (fun _ hc => .inl (h.data ▸ hc)) (by rw [h.data])
  | write hl h => exact hi.write hv h
  | _ => exact hi.same rfl (fun _ _ h => .inl h) (fun _ h => .inl h) rfl

theorem SaidInv.start (q : Config) : SaidInv q (start q).mem := by
  refine ⟨fun _ _ h => ?_, fun _ h => (h rfl).elim⟩
  cases h

/-- Who takes from the stock has the ingredients afterwards. -/
theorem Act.takes (h : Act q D t s s') (hm : s'.data.map ≠ s.data.map) :
    ∃ i, t = .arrival i ∧ s'.data.ingredients i = 1 := by
  cases h with
  | lock h => exact (hm (by rw [h.data])).elim
  | write hl h =>
    cases h with
    | @give i _ h ho he => exact ⟨i, rfl, Function.update_self ..⟩
    | _ => exact (hm rfl).elim
  | _ => exact (hm rfl).elim

/-- For every topping that is listed with a quantity, what was there is what is left and what the
customers with ingredients have taken. Unlimited toppings stay unlimited. Only a customer who then has the
ingredients takes something, and such a customer keeps them and is never sent away. -/
theorem toppings_conserved (q : Config) (hsize : q.fav.length + q.top.length ≤ MAX_SIZE)
    (hwant : ∀ i, (q.toppings i).toFinset.card ≤ MAX_SIZE) (h : Reach (body q) (start q) x) :
    (∀ p Q, lastListed q.top p = some Q → 0 ≤ Q → 0 ≤ find x.mem.data.map p ∧
      Q = find x.mem.data.map p + ∑ i ∈ Finset.range q.tot_customer,
        if x.mem.data.ingredients i = 1 then ((q.toppings i).count p : Int) else 0) ∧
    (∀ p, lastListed q.top p = some (-1) → find x.mem.data.map p = -1) ∧
    (∀ t w y, x.step (body q) t w = some y → y.mem.data.map ≠ x.mem.data.map →
      ∃ i, t = .arrival i ∧ y.mem.data.ingredients i = 1) ∧
    (∀ t w y i, x.step (body q) t w = some y → x.mem.data.ingredients i = 1 →
      y.mem.data.ingredients i = 1) ∧
    ∀ i, x.mem.data.ingredients i = 1 →
      .unfulfilled ∉ x.mem.data.said i ∧ .away ∉ x.mem.data.said i := by
  have ht (i : Nat) : Tallies (q.toppings i) (q.want i) := tallies_want _ (hwant i)
  have hstock {p Q} (hp : lastListed q.top p = some Q) : StockInv q p Q x.mem.data :=
    kept_by_runs h (fun s => StockInv q p Q s.data) (.start hsize hp)
      fun _ _ _ hv hi ha => hi.act hv ht ha
  have hsaid : SaidInv q x.mem :=
    kept_by_runs h (SaidInv q) (.start q) fun _ _ _ hv hi ha => hi.act hv ha
  have hkept := (parlour_start q _).reach (parlour_sound q _) h
  refine ⟨fun p Q hp => (hstock hp).limited, fun p hp => (hstock hp).unlimited rfl,
    fun t w y hy => ?_, fun t w y i hy h1 => ?_, fun i h1 => ⟨fun hm => ?_, fun hm => ?_⟩⟩
  · exact (hkept.guar (parlour_sound q _) trivial hy).takes
  · have hf := Act.frame (hkept.guar (parlour_sound q _) trivial hy) hkept.inv
    rw [hf.ingredients i (by rw [h1]; decide)]
    exact h1
  · have := hsaid.fits i _ hm
    rw [hkept.inv.stage_given h1] at this
    cases this
  · have := hsaid.fits i _ hm
    rw [hkept.inv.stage_given h1] at this
    cases this

/-- The first customer has got the caramel for one ice cream. -/
theorem toppings_conserved_couple : ∃ x, Reach (body couple) (start couple) x ∧
    x.mem.data.ingredients 0 = 1 ∧ find x.mem.data.map "caramel" = 3 ∧
    (4 : Int) = find x.mem.data.map "caramel" + ∑ i ∈ Finset.range couple.tot_customer,
      if x.mem.data.ingredients i = 1 then ((couple.toppings i).count "caramel" : Int) else 0 := by
  have hrun : ((Parlour.start couple).run (body couple) (steps .counter 3 ++
      steps (.arrival 0) 19)).map (fun x => (x.mem.data.ingredients 0,
        find x.mem.data.map "caramel")) = some (1, 3) := by
    decide +kernel
  obtain ⟨x, hx, he⟩ := Option.map_eq_some_iff.1 hrun
  simp only [Prod.mk.injEq] at he
  have hwant (i : Nat) : (couple.toppings i).toFinset.card ≤ MAX_SIZE := by
    refine Nat.le_trans (List.toFinset_card_le _) ?_
    rcases i with _ | _ | i
    · decide
    · decide
    · exact Nat.zero_le _
  have hall := toppings_conserved couple (by decide) hwant (.of_run hx)
  exact ⟨x, .of_run hx, he.1, he.2, (hall.1 "caramel" 4 (by decide) (by decide)).2⟩

end Parlour

end PbsCow

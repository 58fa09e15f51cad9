import PbsCow.ParlourGates
import PbsCow.Lib.Counting

namespace PbsCow
set_option autoImplicit true

namespace Parlour

open Pthread

/-- The customer has taken the entering branch. -/
def Visit.entered (v : Visit) : Bool :=
  v.stage == .entered || v.stage == .given || v.stage == .unfulfilled

/-- The customer has entered, and has not executed its `spawned++`. -/
def Visit.inside (v : Visit) : Bool := v.entered && !v.left

/-- The customer has entered, and has not executed its `cind++`. -/
def Visit.uncounted (v : Visit) : Bool := v.entered && !v.passed

/-- The customer goes away, and is between its `cind++` and its `spawned++`. -/
def Visit.leaving (v : Visit) : Bool := !v.entered && v.passed && !v.left

/-- How many customers are so far. -/
def Data.number (q : Config) (d : Data) (p : Visit → Bool) : Nat :=
  countBelow q.tot_customer fun i => p (d.visit i)

/-- A customer who finds place is not deceived by customers who have entered before it and have not
executed their `cind++`, and no increment of the two counters is lost. -/
def CountsRight (q : Config) (t : Tid) (k : Code) (s : Memory) : Prop :=
  ∀ i, t = .arrival i →
    (k = room q i → s.data.cind < s.data.spawned → s.data.cind + s.data.number q Visit.uncounted <
      s.data.spawned + s.data.number q Visit.leaving) ∧
    (∀ v k', k = storeCind i v k' → s.data.cind = v) ∧
    (∀ v k', k = storeSpawned i v k' → s.data.spawned = v)

/-- `spawned - cind` is the number of free places, but for the customers in between. -/
structure CapacityInv (q : Config) (s : Memory) : Prop where
  balance : s.data.spawned + s.data.number q Visit.inside + s.data.number q Visit.leaving =
    q.k + s.data.cind + s.data.number q Visit.uncounted
  order : ∀ i, (s.data.visit i).entered = false → (s.data.visit i).left = true →
    (s.data.visit i).passed = true
  capacity : s.data.number q Visit.inside ≤ q.k

variable {q : Config} {D : Tid → Code → Memory → Prop} {s s' : Memory} {d : Data}

theorem number_move (hi : i < q.tot_customer) (hd : d.visit = Function.update s.data.visit i v)
    (p : Visit → Bool) : d.number q p + (p (s.data.visit i)).toNat =
      s.data.number q p + (p v).toNat := by
  have := countBelow_change (fun k => p (s.data.visit k)) (fun k => p (d.visit k)) hi fun k hk => by
    rw [hd, Function.update_of_ne hk]
  rw [hd, Function.update_self] at this
  rw [Data.number, hd]
  exact this

theorem CapacityInv.same (hi : CapacityInv q s) (hv : s'.data.visit = s.data.visit)
    (hc : s'.data.cind = s.data.cind) (hs : s'.data.spawned = s.data.spawned) :
    CapacityInv q s' := by
  have hn (p : Visit → Bool) : s'.data.number q p = s.data.number q p := by
    rw [Data.number, Data.number, hv]
  refine ⟨?_, ?_, ?_⟩
  · rw [hn, hn, hn, hc, hs]
    exact hi.balance
  · rw [hv]
    exact hi.order
  · rw [hn]
    exact hi.capacity

/-- A customer gets further, and the counters change by `a` and `b`. -/
theorem CapacityInv.move (hi : CapacityInv q s) (hn : i < q.tot_customer)
    (hv : d.visit = Function.update s.data.visit i v) (hs : d.spawned = s.data.spawned + a)
    (hc : d.cind = s.data.cind + b)
    (hb : a + v.inside.toNat + v.leaving.toNat + (s.data.visit i).uncounted.toNat =
      b + v.uncounted.toNat + (s.data.visit i).inside.toNat + (s.data.visit i).leaving.toNat)
    (ho : v.entered = false → v.left = true → v.passed = true)
    (hk : s.data.number q Visit.inside + v.inside.toNat ≤
      q.k + (s.data.visit i).inside.toNat) : CapacityInv q { s with data := d } := by
  have hinside := number_move hn hv Visit.inside
  have hleaving := number_move hn hv Visit.leaving
  have huncounted := number_move hn hv Visit.uncounted
  refine ⟨?_, fun k hk hl => ?_, ?_⟩
  · have := hi.balance
    dsimp only
    omega
  · dsimp only at hk hl ⊢
    rw [hv] at hk hl ⊢
    by_cases he : k = i
    · rw [he, Function.update_self] at hk hl ⊢
      exact ho hk hl
    · rw [Function.update_of_ne he] at hk hl ⊢
      exact hi.order k hk hl
  · dsimp only
    omega

/-- A customer gets further, and is not nearer to the door. -/
theorem CapacityInv.stay (hi : CapacityInv q s) (hn : i < q.tot_customer)
    (hv : d.visit = Function.update s.data.visit i v) (hs : d.spawned = s.data.spawned)
    (hc : d.cind = s.data.cind) (he : v.entered = (s.data.visit i).entered)
    (hp : v.passed = (s.data.visit i).passed) (hl : v.left = (s.data.visit i).left) :
    CapacityInv q { s with data := d } := by
  have hin : v.inside = (s.data.visit i).inside := by rw [Visit.inside, Visit.inside, he, hl]
  have hun : v.uncounted = (s.data.visit i).uncounted := by rw [Visit.uncounted, Visit.uncounted, he, hp]
  have hle : v.leaving = (s.data.visit i).leaving := by rw [Visit.leaving, Visit.leaving, he, hp, hl]
  have hcap := hi.capacity
  refine hi.move hn hv (a := 0) (b := 0) (by rw [hs, Int.add_zero]) (by rw [hc, Int.add_zero]) ?_ ?_ ?_
  · rw [hin, hun, hle]
    omega
  · rw [he, hp, hl]
    exact hi.order i
  · rw [hin]
    omega

/-- A customer enters. -/
theorem CapacityInv.room (hi : CapacityInv q s) (hn : i < q.tot_customer)
    (h : s.data.visit i = ⟨.arrived, false, false, false⟩)
    (hd : CountsRight q (.arrival i) (room q i) s) : CapacityInv q { s with
      data := s.data.setStage i (if s.data.cind < s.data.spawned then .entered else .full) } := by
  by_cases hlt : s.data.cind < s.data.spawned
  · rw [if_pos hlt]
    have hroom := (hd i rfl).1 rfl hlt
    have hbalance := hi.balance
    refine hi.move hn rfl (a := 0) (b := 0) (Int.add_zero _).symm (Int.add_zero _).symm ?_ ?_ ?_
    · rw [h]
      rfl
    · rw [h]
      simp
    · rw [h]
      show s.data.number q Visit.inside + 1 ≤ q.k + 0
      omega
  · rw [if_neg hlt]
    exact hi.stay hn rfl rfl rfl (by rw [h]; rfl) rfl rfl

/-- The customer executes its `cind++`. -/
theorem CapacityInv.cind (hi : CapacityInv q s) (hn : i < q.tot_customer)
    (hp : (s.data.visit i).passed = false) (hc : s.data.cind = v) :
    CapacityInv q { s with data := { s.data with
      cind := v + 1
      visit := Function.update s.data.visit i { s.data.visit i with passed := true } } } := by
  have hcap := hi.capacity
  have horder := hi.order i
  refine hi.move hn rfl (a := 0) (b := 1) (Int.add_zero _).symm (by rw [hc]) ?_ (fun _ _ => rfl) ?_
  · have he : Visit.entered { s.data.visit i with passed := true } = (s.data.visit i).entered := rfl
    simp only [Visit.inside, Visit.leaving, Visit.uncounted, he, hp]
    cases hent : (s.data.visit i).entered <;> cases hl : (s.data.visit i).left
    all_goals simp
    rw [hp] at horder
    exact absurd (horder hent hl) (by simp)
  · exact Nat.add_le_add_right hcap _

/-- The customer executes its `spawned++`. -/
theorem CapacityInv.spawned (hi : CapacityInv q s) (hn : i < q.tot_customer)
    (hl : (s.data.visit i).left = false)
    (hx : (s.data.visit i).entered = true ∨ (s.data.visit i).passed = true)
    (hs : s.data.spawned = v) :
    CapacityInv q { s with data := { s.data with
      spawned := v + 1
      visit := Function.update s.data.visit i { s.data.visit i with left := true } } } := by
  have hcap := hi.capacity
  have he : Visit.entered { s.data.visit i with left := true } = (s.data.visit i).entered := rfl
  refine hi.move hn rfl (a := 1) (b := 0) (by rw [hs]) (Int.add_zero _).symm ?_ (fun hent _ => ?_) ?_
  · simp only [Visit.inside, Visit.leaving, Visit.uncounted, he, hl]
    rcases hx with hx | hx
    · rw [hx]
      simp [Int.add_comm]
    · rw [hx]
      cases (s.data.visit i).entered <;> simp
  · rcases hx with hx | hx
    · exact absurd (hent.symm.trans hx) (by simp)
    · exact hx
  · simp only [Visit.inside, he]
    simp
    omega

theorem CapacityInv.write (hi : CapacityInv q s) (hl : Live q t s)
    (h : Write q (CountsRight q) t s d) : CapacityInv q { s with data := d } := by
  have hn {i} (ht : t = .arrival i) : i < q.tot_customer := by
    have := hl.created
    rw [ht] at this
    exact of_decide_eq_true this
  cases h with
  | arrive h ht => exact hi.stay (hn rfl) rfl rfl rfl (by rw [h]; rfl) rfl rfl
  | room h hd => exact hi.room (hn rfl) h hd
  | away h hd => exact hi.stay (hn rfl) rfl rfl rfl (by rw [h]; rfl) rfl rfl
  | unfulfilled h hd => exact hi.stay (hn rfl) rfl rfl rfl (by rw [h]; rfl) rfl rfl
  | give h ho he => exact hi.stay (hn rfl) rfl rfl rfl (by rw [h]; rfl) rfl rfl
  | cind h hx hd => exact hi.cind (hn rfl) h ((hd _ rfl).2.1 _ _ rfl)
  | spawned h hx hd =>
    refine hi.spawned (hn rfl) h ?_ ((hd _ rfl).2.2 _ _ rfl)
    rcases hx with hx | hx | hx
    · exact .inl (by simp [Visit.entered, hx])
    · exact .inl (by simp [Visit.entered, hx])
    · exact .inr hx.2
  | exclude h hx => exact hi.stay (hn rfl) rfl rfl rfl rfl rfl rfl
  | _ => exact hi.same rfl rfl rfl

theorem CapacityInv.act (hi : CapacityInv q s) (h : Act q (CountsRight q) t s s') :
    CapacityInv q s' := by
  cases h with
  | lock h => exact hi.same (by rw [h.data]) (by rw [h.data]) (by rw [h.data])
  | write hl h => exact hi.write hl h
  | _ => exact hi.same rfl rfl rfl

theorem CapacityInv.start (q : Config) : CapacityInv q (start q).mem := by
  have hn (p : Visit → Bool) (hp : p .new = false) :
      (Data.start q).number q p = 0 := by
    show countBelow q.tot_customer (fun _ => p .new) = 0
    rw [hp, countBelow_false]
  refine ⟨?_, fun _ _ h => ?_, ?_⟩
  · show (q.k : Int) + (Data.start q).number q Visit.inside + (Data.start q).number q Visit.leaving =
      q.k + 0 + (Data.start q).number q Visit.uncounted
    rw [hn Visit.inside rfl, hn Visit.leaving rfl, hn Visit.uncounted rfl]
    rfl
  · cases h
  · show (Data.start q).number q Visit.inside ≤ q.k
    rw [hn Visit.inside rfl]
    exact Nat.zero_le _

end Parlour

end PbsCow

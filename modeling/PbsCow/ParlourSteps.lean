import PbsCow.Parlour

namespace PbsCow
set_option autoImplicit true

namespace Parlour

open Pthread

/-- The count of the toppings of customer `i`. -/
def Config.want (q : Config) (i : Nat) : Map := (q.toppings i).foldl insertOrUpdateTopping []

/-- What `ingredients` says of a customer. -/
def Visit.ingredients (v : Visit) : Int :=
  if v.stage = .given then 1 else if v.excluded then 0 else -1

def Visit.new : Visit := ⟨.coming, false, false, false⟩

/-- The time for which a `queue_hand` waits. -/
def Cone.target (q : Config) (j : Nat) : Cone → Option Int
  | .holding _ _ => some (q.t_arr (q.buyer j) + 1)
  | .started _ curr => some (curr + q.time j)
  | .released _ curr => some (curr + q.time j)
  | .counted _ curr _ => some (curr + q.time j)
  | _ => none

/-- The ice cream has not begun, or nothing remains to be done for it. -/
def Cone.idle : Cone → Bool
  | .waiting => true
  | .retired _ _ _ _ => true
  | _ => false

section Steps

variable (q : Config) (D : Tid → Code → Memory → Prop)

/-- Every thread is blocked or has returned when the counter sets `sec`. -/
def Paced : Prop :=
  ∀ s, D .counter counter s → ∀ t, t ≠ .counter → created q t = true →
    s.waits t ≠ none ∨ s.data.finished t = true

/-- The thread runs. -/
structure Live (t : Tid) (s : Memory) : Prop where
  created : created q t = true
  awake : s.waits t = none
  finished : s.data.finished t = false

/-- What a thread writes to the data. A step that takes part in a condition `D` on runs tells that the
condition was met. -/
inductive Write : Tid → Memory → Data → Prop
  | tick (h : s.data.ticked = false) (hd : D .counter counter s) :
    Write .counter s { s.data with sec := s.data.sec + 1, ticked := true }
  | finish (h : ∀ j, t = .queue j → (s.data.cone j).idle = true) :
    Write t s { s.data with finished := Function.update s.data.finished t true }
  | pass : Write (.arrival i) s ({ s.data with
      scheduler := s.data.scheduler + 1 }.owe (.arrival i) .verfastswap true)
  | arrive (h : s.data.visit i = .new) (ht : q.t_arr i ≤ s.data.sec) :
    Write (.arrival i) s (s.data.setStage i .arrived)
  | room (h : s.data.visit i = ⟨.arrived, false, false, false⟩) (hd : D (.arrival i) (room q i) s) :
    Write (.arrival i) s (s.data.setStage i (if s.data.cind < s.data.spawned then .entered else .full))
  | away (h : s.data.visit i = ⟨.full, false, false, false⟩)
      (hd : D (.arrival i) (say i .away (·.setStage i .away) k) s) :
    Write (.arrival i) s { s.data.setStage i .away with
      said := Function.update s.data.said i (.away :: s.data.said i) }
  | unfulfilled (h : s.data.visit i = ⟨.entered, false, false, false⟩)
      (hd : D (.arrival i) (say i .unfulfilled (·.setStage i .unfulfilled) k) s) :
    Write (.arrival i) s { s.data.setStage i .unfulfilled with
      said := Function.update s.data.said i (.unfulfilled :: s.data.said i) }
  | settle (h : s.data.visit i = ⟨.unfulfilled, false, false, false⟩)
      (ho : s.owner .mutex = some (.arrival i)) :
    Write (.arrival i) s { s.data with done := Function.update s.data.done i (q.num_icecream i) }
  | give (h : s.data.visit i = ⟨.entered, false, false, false⟩)
      (ho : s.owner .mutex = some (.arrival i)) (he : enough s.data.map (q.want i) = true) :
    Write (.arrival i) s ({ s.data with
      map := deduct s.data.map (q.want i),
      ingredients := Function.update s.data.ingredients i 1 }.setStage i .given)
  | cind (h : (s.data.visit i).passed = false)
      (hx : (s.data.visit i).stage = .given ∨ (s.data.visit i).stage = .unfulfilled ∨
        (s.data.visit i).stage = .away) (hd : D (.arrival i) (storeCind i v k) s) :
    Write (.arrival i) s { s.data with
      cind := v + 1
      visit := Function.update s.data.visit i { s.data.visit i with passed := true } }
  | spawned (h : (s.data.visit i).left = false)
      (hx : (s.data.visit i).stage = .given ∨ (s.data.visit i).stage = .unfulfilled ∨
        (s.data.visit i).stage = .away ∧ (s.data.visit i).passed = true)
      (hd : D (.arrival i) (storeSpawned i v k) s) :
    Write (.arrival i) s { s.data with
      spawned := v + 1
      visit := Function.update s.data.visit i { s.data.visit i with left := true } }
  | exclude (h : s.data.visit i = ⟨x, true, true, false⟩) (hx : x = .unfulfilled ∨ x = .away) :
    Write (.arrival i) s { s.data with
      ingredients := Function.update s.data.ingredients i 0
      visit := Function.update s.data.visit i { s.data.visit i with excluded := true } }
  | turn : Write (.queue j) s ({ s.data with
      scheduleind := s.data.scheduleind + 1 }.owe (.queue j) .fastswap true)
  | claim (h : s.data.cone j = .waiting) (ho : s.owner .mutex = some (.queue j))
      (hf : s.data.marr i = 0) (hi : s.data.ingredients (q.buyer j) = 1)
      (hs : (q.machine i).tm_start ≤ s.data.sec)
      (hp : Paced q D → s.data.sec + q.time j < (q.machine i).tm_stop) :
    Write (.queue j) s ({ s.data with
      marr := Function.update s.data.marr i 1 }.setCone j (.holding i s.data.sec))
  | start (h : s.data.cone j = .holding i came) (ht : q.t_arr (q.buyer j) + 1 ≤ s.data.sec) :
    Write (.queue j) s (s.data.setCone j (.started i s.data.sec))
  | release (h : s.data.cone j = .started i curr) (ho : s.owner .mutex = some (.queue j))
      (ht : curr + q.time j ≤ s.data.sec) :
    Write (.queue j) s ({ s.data with
      marr := Function.update s.data.marr i 0 }.setCone j (.released i curr))
  | count (h : s.data.cone j = .released i curr) (ho : s.owner .mutex = some (.queue j)) :
    Write (.queue j) s (({ s.data with
      done := Function.update s.data.done (q.buyer j) (s.data.done (q.buyer j) + 1)
        }.setCone j (.counted i curr (s.data.done (q.buyer j) + 1))).owe (.queue j) .cond_swapn true)
  | complete (h : s.data.cone j = .counted i curr rank) :
    Write (.queue j) s (s.data.setCone j (.completed i curr rank s.data.sec))
  | collect (h : s.data.cone j = .completed i curr rank stop)
      (hn : rank = (q.num_icecream (q.buyer j) : Int))
      (hd : D (.queue j) (say (q.buyer j) .collected (·.setCone j (.retired i curr rank stop)) k) s) :
    Write (.queue j) s { s.data.setCone j (.retired i curr rank stop) with
      said := Function.update s.data.said (q.buyer j) (.collected :: s.data.said (q.buyer j)) }
  | retired (h : s.data.cone j = .completed i curr rank stop) :
    Write (.queue j) s (s.data.setCone j (.retired i curr rank stop))
  | examine (h : s.data.unserved i = none) (hn : (q.num_icecream i : Int) > s.data.done i)
      (hd : D .exit (examine q i) s) :
    Write .exit s { s.data with
      unserved := Function.update s.data.unserved i (some (s.data.visit i).stage) }
  | notServiced (h : s.data.unserved i ≠ none) (hn : .notServiced ∉ s.data.said i)
      (hd : D .exit (say i .notServiced id k) s) :
    Write .exit s { s.data with
      said := Function.update s.data.said i (.notServiced :: s.data.said i) }

/-- The wait on `c` is for the time for which the thread waits, which has not come. -/
def Due (t : Tid) (c : Cond) (d : Data) : Prop :=
  ∀ j T, t = .queue j → (d.cone j).target q j = some T → c = .cond_sec ∧ (Paced q D → d.sec < T)

/-- What a step of a thread can do. -/
inductive Act (t : Tid) (s : Memory) : Memory → Prop
  | lock (h : LockStep t s s') : Act t s s'
  | block (hl : Live q t s) (ho : s.owner m = some t) (hd : D t (condWait t c m k) s)
      (ht : Due q D t c s.data) :
    Act t s { s with
      owner := Function.update s.owner m none, waits := Function.update s.waits t (some c) }
  | signal (h : s.data.owes t c = true) :
    Act t s { s with
      waits := fun t => if s.waits t = some c then none else s.waits t
      data := s.data.owe t c false }
  | tock (h : t = .counter) :
    Act t s { s with
      waits := fun t => if s.waits t = some .cond_sec then none else s.waits t
      data := { s.data with ticked := false } }
  | write (hl : Live q t s) (h : Write q D t s d) : Act t s { s with data := d }

/-- What a step leaves to the other threads. -/
structure Frame (t : Tid) (s s' : Memory) : Prop where
  owner : ∀ m t', t' ≠ t → (s'.owner m = some t' ↔ s.owner m = some t')
  waits : ∀ t', t' ≠ t → s.waits t' = none → s'.waits t' = none
  finished : ∀ t', t' ≠ t → s'.data.finished t' = s.data.finished t'
  owes : ∀ t', t' ≠ t → s'.data.owes t' = s.data.owes t'
  visit : ∀ i, t ≠ .arrival i → s'.data.visit i = s.data.visit i
  cone : ∀ j, t ≠ .queue j → s'.data.cone j = s.data.cone j
  sec : s.data.sec ≤ s'.data.sec
  ticked : t ≠ .counter → s'.data.ticked = s.data.ticked
  unserved : t ≠ .exit → s'.data.unserved = s.data.unserved
  said : t ≠ .exit → ∀ i, .notServiced ∈ s'.data.said i → .notServiced ∈ s.data.said i
  mutex : s.owner .mutex ≠ some t → s'.data.map = s.data.map ∧ s'.data.marr = s.data.marr ∧
    s'.data.done = s.data.done
  ingredients : ∀ i, s.data.ingredients i ≠ -1 → s'.data.ingredients i = s.data.ingredients i
  paced : Paced q D → ∀ t', t' ≠ t → t' ≠ .counter → Live q t' s → s'.data.sec = s.data.sec

/-- The customers who have arrived have come in time, and `ingredients` tells how far they got. -/
structure VisitInv (s : Memory) : Prop where
  arrived : ∀ i, (s.data.visit i).stage ≠ .coming → q.t_arr i ≤ s.data.sec
  ingredients : ∀ i, s.data.ingredients i = (s.data.visit i).ingredients
  unserved : ∀ i, .notServiced ∈ s.data.said i → s.data.unserved i ≠ none

end Steps

section Frames

variable {q : Config} {D : Tid → Code → Memory → Prop} {t : Tid} {s s' : Memory}

theorem Write.finished (h : Write q D t s d) (ht : t' ≠ t) :
    d.finished t' = s.data.finished t' := by
  cases h
  case finish => exact Function.update_of_ne ht _ _
  all_goals rfl

theorem Write.owes (h : Write q D t s d) (ht : t' ≠ t) : d.owes t' = s.data.owes t' := by
  cases h <;> first | rfl | exact Function.update_of_ne ht _ _

theorem Write.visit (h : Write q D t s d) (hi : t ≠ .arrival i) :
    d.visit i = s.data.visit i := by
  cases h <;> first
    | rfl
    | apply Function.update_of_ne
      rintro rfl
      exact hi rfl

theorem Write.cone (h : Write q D t s d) (hj : t ≠ .queue j) : d.cone j = s.data.cone j := by
  cases h <;> first
    | rfl
    | apply Function.update_of_ne
      rintro rfl
      exact hj rfl

theorem Write.unserved (h : Write q D t s d) (ht : t ≠ .exit) :
    d.unserved = s.data.unserved := by
  cases h <;> first | rfl | exact (ht rfl).elim

theorem mem_update_said {said : Nat → List Outcome}
    (h : x ∈ Function.update said i (y :: said i) k) : x ∈ said k ∨ k = i ∧ x = y := by
  by_cases hk : k = i
  · subst hk
    rw [Function.update_self] at h
    rcases List.mem_cons.1 h with h | h
    · exact .inr ⟨rfl, h⟩
    · exact .inl h
  · rw [Function.update_of_ne hk] at h
    exact .inl h

/-- Only `exit_handler` says that a customer was not serviced. -/
theorem Write.said (h : Write q D t s d) (ht : t ≠ .exit) (hm : .notServiced ∈ d.said i) :
    .notServiced ∈ s.data.said i := by
  cases h
  case notServiced => exact (ht rfl).elim
  case away =>
    rcases mem_update_said hm with h | ⟨_, h⟩
    · exact h
    · cases h
  case unfulfilled =>
    rcases mem_update_said hm with h | ⟨_, h⟩
    · exact h
    · cases h
  case collect =>
    rcases mem_update_said hm with h | ⟨_, h⟩
    · exact h
    · cases h
  all_goals exact hm

theorem Write.ticked (h : Write q D t s d) (ht : t ≠ .counter) : d.ticked = s.data.ticked := by
  cases h <;> first | rfl | exact (ht rfl).elim

theorem Write.sec (h : Write q D t s d) (ht : t ≠ .counter) : d.sec = s.data.sec := by
  cases h <;> first | rfl | exact (ht rfl).elim

theorem Write.sec_le (h : Write q D t s d) : s.data.sec ≤ d.sec := by
  cases h
  case tick => exact Int.le_add_of_nonneg_right (by decide)
  all_goals exact Int.le_refl _

/-- Only a thread that owns `mutex` writes to the tables that it protects. -/
theorem Write.mutex (h : Write q D t s d) (ho : s.owner .mutex ≠ some t) :
    d.map = s.data.map ∧ d.marr = s.data.marr ∧ d.done = s.data.done := by
  cases h <;> first | exact ⟨rfl, rfl, rfl⟩ | exact (ho ‹_›).elim

/-- A step that keeps time lets nobody miss a second. -/
theorem Write.paced (h : Write q D t s d) (hp : Paced q D) (hc : t' ≠ .counter) (hl : Live q t' s) :
    d.sec = s.data.sec := by
  cases h
  case tick hd =>
    rcases hp s hd t' hc hl.created with hw | hf
    · exact (hw hl.awake).elim
    · exact absurd (hl.finished.symm.trans hf) (by simp)
  all_goals rfl

theorem Write.ingredients (h : Write q D t s d) (hi : VisitInv q s)
    (hne : s.data.ingredients i ≠ -1) : d.ingredients i = s.data.ingredients i := by
  cases h
  case give k h _ _ =>
    by_cases hk : i = k
    · subst hk
      rw [hi.ingredients i, h] at hne
      exact (hne rfl).elim
    · exact Function.update_of_ne hk _ _
  case exclude x k hx h =>
    by_cases hk : i = k
    · subst hk
      rw [hi.ingredients i, h] at hne
      rcases hx with rfl | rfl <;> exact (hne rfl).elim
    · exact Function.update_of_ne hk _ _
  all_goals rfl

theorem LockStep.frame (h : LockStep t s s') : Frame q D t s s' := by
  refine ⟨h.owner, fun t' _ hw => ?_, ?_, ?_, ?_, ?_, ?_, ?_, ?_, ?_, ?_, ?_, ?_⟩
  · rcases h.waits t' with he | he
    · exact he.trans hw
    · exact he
  all_goals simp [h.data]

/-- A broadcast wakes some threads and blocks nobody. -/
theorem wake_waits {w : Tid → Option Cond} (c : Cond) (h : w t = none) :
    (if w t = some c then none else w t) = none := by
  split
  · rfl
  · exact h

theorem Act.frame (h : Act q D t s s') (hi : VisitInv q s) : Frame q D t s s' := by
  cases h with
  | lock h => exact LockStep.frame h
  | block hl ho hd ht =>
    refine ⟨(SyncStep.unlock ho _).owner, fun t' ht' hw => ?_, fun _ _ => rfl, fun _ _ => rfl,
      fun _ _ => rfl, fun _ _ => rfl, Int.le_refl _, fun _ => rfl, fun _ => rfl, fun _ _ h => h,
      fun _ => ⟨rfl, rfl, rfl⟩, fun _ _ => rfl, fun _ _ _ _ _ => rfl⟩
    exact (Function.update_of_ne ht' _ _).trans hw
  | signal h =>
    exact ⟨fun _ _ _ => Iff.rfl, fun t' _ hw => wake_waits _ hw, fun _ _ => rfl,
      fun t' ht => Function.update_of_ne ht _ _, fun _ _ => rfl, fun _ _ => rfl, Int.le_refl _,
      fun _ => rfl, fun _ => rfl, fun _ _ h => h, fun _ => ⟨rfl, rfl, rfl⟩, fun _ _ => rfl, fun _ _ _ _ _ => rfl⟩
  | tock h =>
    exact ⟨fun _ _ _ => Iff.rfl, fun t' _ hw => wake_waits _ hw, fun _ _ => rfl, fun _ _ => rfl,
      fun _ _ => rfl, fun _ _ => rfl, Int.le_refl _, fun ht => (ht h).elim, fun _ => rfl,
      fun _ _ h => h, fun _ => ⟨rfl, rfl, rfl⟩, fun _ _ => rfl, fun _ _ _ _ _ => rfl⟩
  | write hl h =>
    exact ⟨fun _ _ _ => Iff.rfl, fun _ _ hw => hw, fun _ => h.finished, fun _ => h.owes,
      fun _ => h.visit, fun _ => h.cone, h.sec_le, h.ticked, h.unserved,
      fun ht _ => h.said ht, h.mutex,
      fun _ => h.ingredients hi, fun hp _ _ hc hl => h.paced hp hc hl⟩

theorem VisitInv.same (hi : VisitInv q s) (hs : s.data.sec ≤ s'.data.sec)
    (hv : s'.data.visit = s.data.visit) (hin : s'.data.ingredients = s.data.ingredients)
    (hu : ∀ i, .notServiced ∈ s'.data.said i → s'.data.unserved i ≠ none) : VisitInv q s' := by
  refine ⟨fun i h => ?_, fun i => ?_, hu⟩
  · rw [hv] at h
    exact Int.le_trans (hi.arrived i h) hs
  · rw [hv, hin]
    exact hi.ingredients i

theorem VisitInv.move (hi : VisitInv q s) (hs : d.sec = s.data.sec)
    (hv : d.visit = Function.update s.data.visit i v) (ht : q.t_arr i ≤ s.data.sec)
    (hin : d.ingredients = Function.update s.data.ingredients i v.ingredients)
    (hu : ∀ i, .notServiced ∈ d.said i → d.unserved i ≠ none) : VisitInv q { s with data := d } := by
  refine ⟨fun k h => ?_, fun k => ?_, hu⟩
  · dsimp only at h ⊢
    rw [hs]
    by_cases hk : k = i
    · rw [hk]
      exact ht
    · rw [hv, Function.update_of_ne hk] at h
      exact hi.arrived k h
  · dsimp only
    rw [hv, hin]
    by_cases hk : k = i
    · rw [hk, Function.update_self, Function.update_self]
    · rw [Function.update_of_ne hk, Function.update_of_ne hk]
      exact hi.ingredients k

/-- The customer gets further, and `ingredients` says of it what it said before. -/
theorem VisitInv.stay (hi : VisitInv q s) (hs : d.sec = s.data.sec)
    (hv : d.visit = Function.update s.data.visit i v) (ht : q.t_arr i ≤ s.data.sec)
    (hin : d.ingredients = s.data.ingredients) (hx : v.ingredients = (s.data.visit i).ingredients)
    (hu : ∀ i, .notServiced ∈ d.said i → d.unserved i ≠ none) : VisitInv q { s with data := d } := by
  refine hi.move hs hv ht ?_ hu
  rw [hin, hx, ← hi.ingredients i, Function.update_eq_self]

theorem Write.found (h : Write q D t s d) (hi : VisitInv q s) (hm : .notServiced ∈ d.said i) :
    d.unserved i ≠ none := by
  by_cases ht : t = .exit
  · subst ht
    cases h
    case notServiced h _ _ =>
      rcases mem_update_said hm with hm | ⟨rfl, _⟩
      · exact hi.unserved i hm
      · exact h
    case examine k _ _ _ =>
      by_cases hk : i = k
      · subst hk
        simp
      · simpa [hk] using hi.unserved i hm
    case finish => exact hi.unserved i hm
  · rw [h.unserved ht]
    exact hi.unserved i (h.said ht hm)

theorem VisitInv.write (hi : VisitInv q s) (h : Write q D t s d) :
    VisitInv q { s with data := d } := by
  have hu (i : Nat) (hm : .notServiced ∈ d.said i) : d.unserved i ≠ none := h.found hi hm
  have hcome {i v} (h : s.data.visit i = v) (hv : v.stage ≠ .coming) : q.t_arr i ≤ s.data.sec :=
    hi.arrived i (h ▸ hv)
  cases h with
  | arrive h ht => exact hi.stay rfl rfl ht rfl (by rw [h]; rfl) hu
  | room h hd =>
    refine hi.stay rfl rfl (hcome h (by simp)) rfl ?_ hu
    rw [h]
    split <;> rfl
  | away h hd => exact hi.stay rfl rfl (hcome h (by simp)) rfl (by rw [h]; rfl) hu
  | unfulfilled h hd => exact hi.stay rfl rfl (hcome h (by simp)) rfl (by rw [h]; rfl) hu
  | give h ho he => exact hi.move rfl rfl (hcome h (by simp)) rfl hu
  | cind h hx hd =>
    refine hi.stay rfl rfl (hi.arrived _ ?_) rfl rfl hu
    rcases hx with hx | hx | hx <;> simp [hx]
  | spawned h hx hd =>
    refine hi.stay rfl rfl (hi.arrived _ ?_) rfl rfl hu
    rcases hx with hx | hx | hx <;> simp [hx]
  | exclude h hx =>
    refine hi.move rfl rfl (hi.arrived _ ?_) ?_ hu
    · rw [h]
      rcases hx with rfl | rfl <;> simp
    · rw [h]
      rcases hx with rfl | rfl <;> rfl
  | tick h hd => exact hi.same (Int.le_add_of_nonneg_right (by decide)) rfl rfl hu
  | _ => exact hi.same (Int.le_refl _) rfl rfl hu

theorem VisitInv.act (hi : VisitInv q s) (h : Act q D t s s') : VisitInv q s' := by
  cases h with
  | lock h =>
    refine hi.same (Int.le_of_eq (by rw [h.data])) (by rw [h.data]) (by rw [h.data]) fun i hm => ?_
    rw [h.data] at hm ⊢
    exact hi.unserved i hm
  | block => exact hi.same (Int.le_refl _) rfl rfl hi.unserved
  | signal => exact hi.same (Int.le_refl _) rfl rfl hi.unserved
  | tock => exact hi.same (Int.le_refl _) rfl rfl hi.unserved
  | write hl h => exact hi.write h

end Frames

end Parlour

end PbsCow

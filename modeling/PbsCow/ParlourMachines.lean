import PbsCow.ParlourToppings

namespace PbsCow
set_option autoImplicit true

namespace Parlour

open Pthread

/-- The machine that the ice cream holds. -/
def Cone.machine : Cone → Option Nat
  | .holding i _ => some i
  | .started i _ => some i
  | _ => none

/-- Who holds a machine has marked it, and holds it alone. -/
structure MachineInv (s : Memory) : Prop where
  marked : ∀ j i, (s.data.cone j).machine = some i → s.data.marr i = 1
  alone : ∀ j j' i, (s.data.cone j).machine = some i → (s.data.cone j').machine = some i → j = j'

variable {q : Config} {D : Tid → Code → Memory → Prop} {s s' : Memory} {d : Data}

theorem MachineInv.same (hi : MachineInv s) (hm : s'.data.marr = s.data.marr)
    (hc : ∀ j i, (s'.data.cone j).machine = some i → (s.data.cone j).machine = some i) :
    MachineInv s' := by
  refine ⟨fun j i h => ?_, fun j j' i h h' => hi.alone j j' i (hc j i h) (hc j' i h')⟩
  rw [hm]
  exact hi.marked j i (hc j i h)

/-- The ice cream gets further with the same machine, or without one. -/
theorem MachineInv.freeze (hi : MachineInv s) (hm : d.marr = s.data.marr)
    (hc : d.cone = Function.update s.data.cone j x)
    (hx : ∀ i, x.machine = some i → (s.data.cone j).machine = some i) :
    MachineInv { s with data := d } := by
  refine hi.same hm fun k i h => ?_
  dsimp only at h
  rw [hc] at h
  by_cases hk : k = j
  · subst hk
    rw [Function.update_self] at h
    exact hx i h
  · rwa [Function.update_of_ne hk] at h

/-- The ice cream takes a machine that nobody holds. -/
theorem MachineInv.claim (hi : MachineInv s) (hf : s.data.marr i = 0) :
    MachineInv { s with data := { s.data with
      marr := Function.update s.data.marr i 1 }.setCone j (.holding i s.data.sec) } := by
  have hfree (k : Nat) : (s.data.cone k).machine ≠ some i := by
    intro h
    rw [hi.marked k i h] at hf
    cases hf
  have hcone {k i'} (h : (Function.update s.data.cone j (.holding i s.data.sec) k).machine = some i') :
      k = j ∧ i' = i ∨ (s.data.cone k).machine = some i' ∧ i' ≠ i := by
    by_cases hk : k = j
    · subst hk
      rw [Function.update_self] at h
      injection h with h
      exact .inl ⟨rfl, h.symm⟩
    · rw [Function.update_of_ne hk] at h
      exact .inr ⟨h, fun he => hfree k (he ▸ h)⟩
  refine ⟨fun k i' h => ?_, fun k k' i' h h' => ?_⟩
  · dsimp only [Data.setCone]
    rcases hcone h with ⟨_, rfl⟩ | ⟨h, hne⟩
    · exact Function.update_self ..
    · rw [Function.update_of_ne hne]
      exact hi.marked k i' h
  · rcases hcone h with ⟨hk, hi'⟩ | ⟨h, hne⟩
    · rcases hcone h' with ⟨hk', _⟩ | ⟨_, hne'⟩
      · rw [hk, hk']
      · exact (hne' hi').elim
    · rcases hcone h' with ⟨_, hi'⟩ | ⟨h', _⟩
      · exact (hne hi').elim
      · exact hi.alone k k' i' h h'

/-- The ice cream gives its machine back. -/
theorem MachineInv.release (hi : MachineInv s) (h : s.data.cone j = .started i curr) :
    MachineInv { s with data := { s.data with
      marr := Function.update s.data.marr i 0 }.setCone j (.released i curr) } := by
  have hcone {k i'} (hk : (Function.update s.data.cone j (.released i curr) k).machine = some i') :
      (s.data.cone k).machine = some i' ∧ k ≠ j := by
    by_cases he : k = j
    · rw [he, Function.update_self] at hk
      cases hk
    · rw [Function.update_of_ne he] at hk
      exact ⟨hk, he⟩
  refine ⟨fun k i' hk => ?_, fun k k' i' hk hk' => hi.alone k k' i' (hcone hk).1 (hcone hk').1⟩
  obtain ⟨hm, hne⟩ := hcone hk
  have hi' : i' ≠ i := by
    rintro rfl
    exact hne (hi.alone k j i' hm (by rw [h]; rfl))
  dsimp only [Data.setCone]
  rw [Function.update_of_ne hi']
  exact hi.marked k i' hm

theorem MachineInv.write (hi : MachineInv s) (h : Write q D t s d) :
    MachineInv { s with data := d } := by
  cases h with
  | claim h ho hf hin hs hp => exact hi.claim hf
  | start h ht => exact hi.freeze rfl rfl fun i hx => by rw [h]; exact hx
  | release h ho ht => exact hi.release h
  | count h ho => exact hi.freeze rfl rfl fun i hx => by cases hx
  | complete h => exact hi.freeze rfl rfl fun i hx => by cases hx
  | collect h hn hd => exact hi.freeze rfl rfl fun i hx => by cases hx
  | retired h => exact hi.freeze rfl rfl fun i hx => by cases hx
  | _ => exact hi.same rfl fun _ _ h => h

theorem MachineInv.act (hi : MachineInv s) (h : Act q D t s s') : MachineInv s' := by
  cases h with
  | lock h => exact hi.same (by rw [h.data]) fun _ _ hm => h.data ▸ hm
  | write hl h => exact hi.write h
  | _ => exact hi.same rfl fun _ _ h => h

/-- Ice cream `j` may start at `start` on machine `i`. -/
structure Shift (q : Config) (j i : Nat) (start : Int) : Prop where
  opened : (q.machine i).tm_start ≤ start
  arrived : q.t_arr (q.buyer j) + 1 ≤ start
  ends : start + q.time j ≤ (q.machine i).tm_stop

/-- How far an ice cream is in second `sec`. It is asleep if its thread is blocked and the counter has not
to broadcast. -/
def Cone.Timely (q : Config) (j : Nat) (sec : Int) (asleep : Prop) : Cone → Prop
  | .waiting => True
  | .holding i came => ((q.machine i).tm_start ≤ came ∧ came + q.time j < (q.machine i).tm_stop ∧
      q.t_arr (q.buyer j) ≤ came ∧ came ≤ sec) ∧ sec ≤ max came (q.t_arr (q.buyer j) + 1) ∧
      (asleep → sec < q.t_arr (q.buyer j) + 1)
  | .started i start => (Shift q j i start ∧ start ≤ sec) ∧ sec ≤ max start (start + q.time j) ∧
      (asleep → sec < start + q.time j)
  | .released i start => (Shift q j i start ∧ start ≤ sec ∧ start + q.time j ≤ sec) ∧
      sec ≤ max start (start + q.time j) ∧ ¬ asleep
  | .counted i start _ => (Shift q j i start ∧ start ≤ sec ∧ start + q.time j ≤ sec) ∧
      sec ≤ max start (start + q.time j) ∧ ¬ asleep
  | .completed i start _ stop => Shift q j i start ∧ stop = max start (start + q.time j)
  | .retired i start _ stop => Shift q j i start ∧ stop = max start (start + q.time j)

def Asleep (j : Nat) (s : Memory) : Prop := s.waits (.queue j) ≠ none ∧ s.data.ticked = false

structure ShiftInv (q : Config) (s : Memory) : Prop where
  timely : ∀ j, (s.data.cone j).Timely q j s.data.sec (Asleep j s)
  created : ∀ j, s.data.cone j ≠ .waiting → created q (.queue j) = true
  running : ∀ j, (s.data.cone j).idle = false → s.data.finished (.queue j) = false
  blocked : ∀ j, (s.data.cone j).target q j ≠ none → s.waits (.queue j) = none ∨
    s.waits (.queue j) = some .cond_sec

theorem Cone.Timely.mono {x : Cone} (h : x.Timely q j sec a) (ha : b → a) : x.Timely q j sec b := by
  cases x with
  | holding i came => exact ⟨h.1, h.2.1, fun hb => h.2.2 (ha hb)⟩
  | started i start => exact ⟨h.1, h.2.1, fun hb => h.2.2 (ha hb)⟩
  | released i start => exact ⟨h.1, h.2.1, fun hb => h.2.2 (ha hb)⟩
  | counted i start rank => exact ⟨h.1, h.2.1, fun hb => h.2.2 (ha hb)⟩
  | _ => exact h

/-- A second passes while the thread is asleep. -/
theorem Cone.Timely.tick {x : Cone} (h : x.Timely q j sec a)
    (ha : x.idle = false → (∀ i start rank stop, x ≠ .completed i start rank stop) → a) :
    x.Timely q j (sec + 1) False := by
  cases x with
  | waiting => trivial
  | holding i came =>
    have := h.2.2 (ha rfl (by simp))
    refine ⟨⟨h.1.1, h.1.2.1, h.1.2.2.1, Int.le_trans h.1.2.2.2 (Int.le_add_one (Int.le_refl _))⟩, ?_,
      False.elim⟩
    exact Int.le_trans this (Int.le_max_right _ _)
  | started i start =>
    have := h.2.2 (ha rfl (by simp))
    refine ⟨⟨h.1.1, Int.le_trans h.1.2 (Int.le_add_one (Int.le_refl _))⟩, ?_, False.elim⟩
    exact Int.le_trans this (Int.le_max_right _ _)
  | released i start => exact (h.2.2 (ha rfl (by simp))).elim
  | counted i start rank => exact (h.2.2 (ha rfl (by simp))).elim
  | completed i start rank stop => exact h
  | retired i start rank stop => exact h

theorem ShiftInv.at (hi : ShiftInv q s) (h : s.data.cone j = x) :
    x.Timely q j s.data.sec (Asleep j s) := h ▸ hi.timely j

theorem VisitInv.arrived_given (hv : VisitInv q s) (h : s.data.ingredients i = 1) :
    q.t_arr i ≤ s.data.sec := by
  refine hv.arrived i ?_
  rw [hv.stage_given h]
  simp

/-- No ice cream gets further, and nobody falls asleep. -/
theorem ShiftInv.same (hi : ShiftInv q s) (hc : s'.data.cone = s.data.cone)
    (hs : s'.data.sec = s.data.sec) (ht : s'.data.ticked = s.data.ticked)
    (hf : ∀ j, (s.data.cone j).idle = false →
      s'.data.finished (.queue j) = s.data.finished (.queue j))
    (hw : ∀ t, s'.waits t = s.waits t ∨ s'.waits t = none) : ShiftInv q s' := by
  refine ⟨fun j => ?_, fun j hj => ?_, fun j hj => ?_, fun j hj => ?_⟩
  · rw [hc, hs]
    refine (hi.timely j).mono fun ha => ⟨?_, ht ▸ ha.2⟩
    rcases hw (.queue j) with he | he
    · exact he ▸ ha.1
    · exact (ha.1 he).elim
  · rw [hc] at hj
    exact hi.created j hj
  · rw [hc] at hj
    rw [hf j hj]
    exact hi.running j hj
  · rw [hc] at hj
    rcases hw (.queue j) with he | he
    · rw [he]
      exact hi.blocked j hj
    · exact .inl he

/-- An ice cream whose thread runs gets further. -/
theorem ShiftInv.freeze (hi : ShiftInv q s) (hl : Live q (.queue j) s)
    (hc : d.cone = Function.update s.data.cone j x) (hs : d.sec = s.data.sec)
    (ht : d.ticked = s.data.ticked) (hf : d.finished = s.data.finished)
    (hx : x.Timely q j s.data.sec False) : ShiftInv q { s with data := d } := by
  refine ⟨fun k => ?_, fun k hk => ?_, fun k hk => ?_, fun k hk => ?_⟩
  · dsimp only
    rw [hc, hs]
    by_cases he : k = j
    · subst he
      rw [Function.update_self]
      exact hx.mono fun ha => ha.1 hl.awake
    · rw [Function.update_of_ne he]
      exact (hi.timely k).mono fun ha => ⟨ha.1, ht ▸ ha.2⟩
  · by_cases he : k = j
    · rw [he]
      exact hl.created
    · dsimp only at hk
      rw [hc, Function.update_of_ne he] at hk
      exact hi.created k hk
  · dsimp only at hk ⊢
    rw [hf]
    by_cases he : k = j
    · rw [he]
      exact hl.finished
    · rw [hc, Function.update_of_ne he] at hk
      exact hi.running k hk
  · by_cases he : k = j
    · rw [he]
      exact .inl hl.awake
    · dsimp only at hk
      rw [hc, Function.update_of_ne he] at hk
      exact hi.blocked k hk

/-- The counter sets `sec` when every thread is blocked or has returned. -/
theorem ShiftInv.tick (hi : ShiftInv q s) (hp : Paced q D) (h : s.data.ticked = false)
    (hd : D .counter counter s) :
    ShiftInv q { s with data := { s.data with sec := s.data.sec + 1, ticked := true } } := by
  refine ⟨fun j => ?_, hi.created, hi.running, hi.blocked⟩
  refine ((hi.timely j).tick fun hidle _ => ⟨?_, h⟩).mono fun ha => by cases ha.2
  have hcreated : Parlour.created q (.queue j) = true := by
    refine hi.created j fun hw => ?_
    rw [hw] at hidle
    cases hidle
  rcases hp s hd (.queue j) (by simp) hcreated with hw | hf
  · exact hw
  · exact absurd ((hi.running j hidle).symm.trans hf) (by simp)

/-- A thread blocks before its time comes. -/
theorem ShiftInv.block (hi : ShiftInv q s) (hp : Paced q D)
    (ht : Due q D t c s.data) (hw : s'.waits = Function.update s.waits t (some c))
    (hd : s'.data = s.data) : ShiftInv q s' := by
  refine ⟨fun j => ?_, fun j => ?_, fun j => ?_, fun j hj => ?_⟩
  · rw [hd]
    by_cases he : t = .queue j
    · have hx := hi.timely j
      have hsec {T} (hT : (s.data.cone j).target q j = some T) : s.data.sec < T := (ht j T he hT).2 hp
      revert hx hsec
      cases s.data.cone j with
      | holding i came => exact fun hx hsec => ⟨hx.1, hx.2.1, fun _ => hsec rfl⟩
      | started i start => exact fun hx hsec => ⟨hx.1, hx.2.1, fun _ => hsec rfl⟩
      | released i start => exact fun hx hsec => absurd hx.1.2.2 (Int.not_le.2 (hsec rfl))
      | counted i start rank => exact fun hx hsec => absurd hx.1.2.2 (Int.not_le.2 (hsec rfl))
      | _ => exact fun hx _ => hx
    · refine (hi.timely j).mono fun ha => ⟨?_, hd ▸ ha.2⟩
      have := ha.1
      rwa [hw, Function.update_of_ne (Ne.symm he)] at this
  · rw [hd]
    exact hi.created j
  · rw [hd]
    exact hi.running j
  · rw [hd] at hj
    rw [hw]
    by_cases he : t = .queue j
    · obtain ⟨T, hT⟩ := Option.ne_none_iff_exists'.1 hj
      rw [he, Function.update_self, (ht j T he hT).1]
      exact .inr rfl
    · rw [Function.update_of_ne (Ne.symm he)]
      exact hi.blocked j hj

/-- The counter wakes those who wait for a second. -/
theorem ShiftInv.tock (hi : ShiftInv q s) : ShiftInv q { s with
    waits := fun t => if s.waits t = some .cond_sec then none else s.waits t
    data := { s.data with ticked := false } } := by
  have hwoken (j : Nat) (hj : (s.data.cone j).target q j ≠ none) :
      (if s.waits (.queue j) = some Cond.cond_sec then none else s.waits (.queue j)) = none := by
    rcases hi.blocked j hj with hw | hw
    · exact wake_waits _ hw
    · rw [if_pos hw]
  refine ⟨fun j => ?_, hi.created, hi.running, fun j hj => .inl (hwoken j hj)⟩
  have hx := hi.timely j
  have hawake := hwoken j
  dsimp only [Asleep]
  revert hx hawake
  cases s.data.cone j with
  | holding i came => exact fun hx hw => ⟨hx.1, hx.2.1, fun ha => (ha.1 (hw (by simp [Cone.target]))).elim⟩
  | started i start => exact fun hx hw => ⟨hx.1, hx.2.1, fun ha => (ha.1 (hw (by simp [Cone.target]))).elim⟩
  | released i start => exact fun hx hw => ⟨hx.1, hx.2.1, fun ha => ha.1 (hw (by simp [Cone.target]))⟩
  | counted i start rank => exact fun hx hw => ⟨hx.1, hx.2.1, fun ha => ha.1 (hw (by simp [Cone.target]))⟩
  | _ => exact fun hx _ => hx

theorem ShiftInv.write (hi : ShiftInv q s) (hv : VisitInv q s) (hp : Paced q D) (hl : Live q t s)
    (h : Write q D t s d) : ShiftInv q { s with data := d } := by
  cases h with
  | tick h hd => exact hi.tick hp h hd
  | finish h =>
    refine hi.same rfl rfl rfl (fun j hj => ?_) fun _ => .inl rfl
    refine Function.update_of_ne (fun he => ?_) _ _
    rw [h j he.symm] at hj
    cases hj
  | claim h ho hf hin hs hstop =>
    exact hi.freeze hl rfl rfl rfl rfl
      ⟨⟨hs, hstop hp, hv.arrived_given hin, Int.le_refl _⟩, Int.le_max_left _ _, False.elim⟩
  | start h ht =>
    have hx := hi.at h
    refine hi.freeze hl rfl rfl rfl rfl ⟨⟨⟨?_, ht, ?_⟩, Int.le_refl _⟩, Int.le_max_left _ _, False.elim⟩
    · exact Int.le_trans hx.1.1 hx.1.2.2.2
    · obtain ⟨⟨_, hstop, harr, _⟩, hle, _⟩ := hx
      omega
  | release h ho ht =>
    have hx := hi.at h
    exact hi.freeze hl rfl rfl rfl rfl ⟨⟨hx.1.1, hx.1.2, ht⟩, hx.2.1, False.elim⟩
  | count h ho =>
    have hx := hi.at h
    exact hi.freeze hl rfl rfl rfl rfl ⟨hx.1, hx.2.1, False.elim⟩
  | complete h =>
    have hx := hi.at h
    refine hi.freeze hl rfl rfl rfl rfl ⟨hx.1.1, ?_⟩
    obtain ⟨⟨_, h₁, h₂⟩, h₃, _⟩ := hx
    omega
  | collect h hn hd =>
    have hx := hi.at h
    exact hi.freeze hl rfl rfl rfl rfl hx
  | retired h =>
    have hx := hi.at h
    exact hi.freeze hl rfl rfl rfl rfl hx
  | _ => exact hi.same rfl rfl rfl (fun _ _ => rfl) fun _ => .inl rfl

theorem ShiftInv.act (hi : ShiftInv q s) (hv : VisitInv q s) (hp : Paced q D)
    (h : Act q D t s s') : ShiftInv q s' := by
  cases h with
  | lock h =>
    exact hi.same (by rw [h.data]) (by rw [h.data]) (by rw [h.data]) (fun _ _ => by rw [h.data]) h.waits
  | block hl ho hd ht => exact hi.block hp ht rfl rfl
  | signal h =>
    refine hi.same rfl rfl rfl (fun _ _ => rfl) fun t => ?_
    dsimp only
    split
    · exact .inr rfl
    · exact .inl rfl
  | tock h => exact hi.tock
  | write hl h => exact hi.write hv hp hl h

/-- When the counter sets `sec`, every other thread is blocked or has returned. -/
def Settled (q : Config) (t : Tid) (k : Code) (s : Memory) : Prop :=
  t = .counter → k = counter → ∀ t', t' ≠ .counter → created q t' = true →
    s.waits t' ≠ none ∨ s.data.finished t' = true

/-- Where and when an ice cream was started. -/
def Cone.begun : Cone → Option (Nat × Int)
  | .started i start => some (i, start)
  | .released i start => some (i, start)
  | .counted i start _ => some (i, start)
  | .completed i start _ _ => some (i, start)
  | .retired i start _ _ => some (i, start)
  | _ => none

/-- When an ice cream was completed. -/
def Cone.ended : Cone → Option Int
  | .completed _ _ _ stop => some stop
  | .retired _ _ _ stop => some stop
  | _ => none

theorem Cone.Timely.shift {x : Cone} (h : x.Timely q j sec a) (hx : x.begun = some (i, b)) :
    Shift q j i b ∧ ∀ e, x.ended = some e → e = max b (b + q.time j) := by
  cases x with
  | waiting => cases hx
  | holding i came => cases hx
  | completed i start rank stop =>
    cases hx
    refine ⟨h.1, fun e he => ?_⟩
    cases he
    exact h.2
  | retired i start rank stop =>
    cases hx
    refine ⟨h.1, fun e he => ?_⟩
    cases he
    exact h.2
  | _ =>
    cases hx
    refine ⟨h.1.1, fun e he => ?_⟩
    cases he

/-- One machine, and one customer who wants an ice cream. -/
def single : Config where
  k := 1
  mac := [⟨0, 9⟩]
  fav := [("vanilla", 1)]
  top := []
  arr := [⟨1, 0, [⟨"vanilla", []⟩]⟩]

/-- A test for `Settled` on the four other threads that there are. -/
def settled (t : Tid) (_ : Code) (s : Memory) : Bool :=
  t != .counter || [Tid.machine 0, .arrival 0, .queue 0, .exit].all fun t' =>
    (s.waits t').isSome || s.data.finished t'

theorem settled_spec (h : settled t k s = true) : Settled single t k s := by
  rintro rfl _ t' ht hc
  have hall : ∀ t'' ∈ [Tid.machine 0, .arrival 0, .queue 0, .exit],
      s.waits t'' ≠ none ∨ s.data.finished t'' = true := by
    intro t'' hm
    have := List.all_eq_true.1 ((Bool.or_eq_true_iff.1 h).resolve_left (by decide)) t'' hm
    rcases Bool.or_eq_true_iff.1 this with hw | hf
    · exact .inl (Option.isSome_iff_ne_none.1 hw)
    · exact .inr hf
  refine hall t' ?_
  cases t' with
  | counter => exact (ht rfl).elim
  | machine i =>
    have : i < 1 := of_decide_eq_true hc
    simp [Nat.lt_one_iff.1 this]
  | arrival i =>
    have : i < 1 := of_decide_eq_true hc
    simp [Nat.lt_one_iff.1 this]
  | queue j =>
    have : j < 1 := of_decide_eq_true hc
    simp [Nat.lt_one_iff.1 this]
  | exit => simp

end Parlour

end PbsCow

import PbsCow.LoneRuns

namespace PbsCow
set_option autoImplicit true

/-- The event switches to the process in slot `i`. -/
def Event.Dispatches (m m' : Machine) (ev : Event) (i : Slot) : Prop :=
  ∃ c, ev = .round c ∧ m.cpu c = none ∧ m'.cpu c = some i

/-- The ticks for which a process in state `st` has run and slept, after an event. -/
def Event.counts (ev : Event) (st : ProcState) (n : Nat × Nat) : Nat × Nat :=
  match ev, st with
  | .tick, .RUNNING => (n.1 + 1, n.2)
  | .tick, .SLEEPING => (n.1, n.2 + 1)
  | _, _ => n

theorem Event.counts_of_ne {ev : Event} (h : ev ≠ .tick) (st : ProcState) (n : Nat × Nat) :
    ev.counts st n = n := by
  cases ev with
  | tick => exact (h rfl).elim
  | _ => rfl

open Classical in
/-- Keeps, for every process, the ticks for which it has run and slept since it was last switched to,
or since it was created. -/
noncomputable def noteTicks (ev : Event) (m m' : Machine) (recent : Slot → Nat × Nat) (i : Slot) :
    Nat × Nat :=
  if Allocated m m' i ∨ ev.Dispatches m m' i then (0, 0)
  else ev.counts (m.sys.proc i).state (recent i)

/-- The event does not switch to a process that has counted ticks, and no counter overflows. -/
structure Event.Restarts (m : Machine) (ev : Event) : Prop where
  fresh : ∀ c p, ev = .round c → m.cpu c = none → best m.seen (List.finRange NPROC) none = some p →
    (m.sys.proc p).my_rtime = 0 ∧ (m.sys.proc p).my_stime = 0
  fits : ev = .tick → ∀ i,
    ((m.sys.proc i).state = .RUNNING → (m.sys.proc i).my_rtime.toNat + 1 < 2 ^ 32) ∧
    ((m.sys.proc i).state = .SLEEPING → (m.sys.proc i).my_stime.toNat + 1 < 2 ^ 32)

def Proc.Measures (q : Proc) (recent : Nat × Nat) : Prop :=
  q.my_rtime.toNat = recent.1 ∧ q.my_stime.toNat = recent.2

theorem event_dispatches {m : Machine} (L : Layout) (ev : Event) :
    Wp (Machine.event L ev) AnyError (fun _ m' => ∀ i, ev.Dispatches m m' i →
      ∃ c, ev = .round c ∧ m.cpu c = none ∧ best m.seen (List.finRange NPROC) none = some i) m := by
  by_cases hr : ∃ c, ev = .round c
  · obtain ⟨c, rfl⟩ := hr
    refine wp_round (fun hb i => ?_) (fun hc _ i => ?_) fun p hc hp _ i => ?_
    · rintro ⟨_, he, hc, _⟩
      cases he
      exact (hb hc).elim
    · rintro ⟨_, he, _, hi⟩
      cases he
      have hi' : m.cpu c = some i := hi
      rw [hc] at hi'
      cases hi'
    · rintro ⟨_, he, _, hi⟩
      cases he
      rw [m.dispatched_cpu, Function.update_self] at hi
      cases hi
      exact ⟨c, rfl, hc, hp⟩
  · exact .of_forall fun _ _ _ ⟨c, he, _⟩ => (hr ⟨c, he⟩).elim

/-- The counters of a process that lives through an event, or is created by it. -/
theorem Passed.measures {m m' : Machine} (h : Passed m.sys m'.sys i clock)
    (hi : (m'.sys.proc i).state ≠ .UNUSED)
    (hd : ev.Dispatches m m' i → clock.1 = 0 ∧ clock.2.1 = 0)
    (hl : (m.sys.proc i).state ≠ .UNUSED → ¬ ev.Dispatches m m' i →
      (clock.1.toNat, clock.2.1.toNat) = ev.counts (m.sys.proc i).state (recent i)) :
    (m'.sys.proc i).Measures (noteTicks ev m m' recent i) := by
  rcases h with ⟨hp, hk⟩ | ⟨hp, hu, hk⟩
  · have hr : (m'.sys.proc i).my_rtime = 0 := congrArg (fun c => c.1) hk
    have hs : (m'.sys.proc i).my_stime = 0 := congrArg (fun c => c.2.1) hk
    rw [noteTicks, if_pos (.inl ⟨hp, hi⟩), Proc.Measures, hr, hs]
    exact ⟨rfl, rfl⟩
  · have hr : (m'.sys.proc i).my_rtime = clock.1 := congrArg (fun c => c.1) hk
    have hs : (m'.sys.proc i).my_stime = clock.2.1 := congrArg (fun c => c.2.1) hk
    have hold : ¬ Allocated m m' i := fun ha => ha.1 hp
    by_cases hdi : ev.Dispatches m m' i
    · obtain ⟨h1, h2⟩ := hd hdi
      rw [noteTicks, if_pos (.inr hdi), Proc.Measures, hr, hs, h1, h2]
      exact ⟨rfl, rfl⟩
    · rw [noteTicks, if_neg (by simp [hold, hdi]), ← hl hu hdi, Proc.Measures, hr, hs]
      exact ⟨rfl, rfl⟩

theorem Proc.Measures.tick (h : Proc.Measures q n)
    (hr : q.state = .RUNNING → q.my_rtime.toNat + 1 < 2 ^ 32)
    (hs : q.state = .SLEEPING → q.my_stime.toNat + 1 < 2 ^ 32) :
    (q.tickClock.1.toNat, q.tickClock.2.1.toNat) = Event.tick.counts q.state n := by
  obtain ⟨h1, h2⟩ := h
  rw [Proc.tickClock]
  cases hst : q.state with
  | RUNNING =>
    have hadd : (q.my_rtime + 1).toNat = q.my_rtime.toNat + 1 := by
      rw [BitVec.toNat_add]
      exact Nat.mod_eq_of_lt (hr hst)
    simp only [Event.counts, hadd, h1, h2]
  | SLEEPING =>
    have hadd : (q.my_stime + 1).toNat = q.my_stime.toNat + 1 := by
      rw [BitVec.toNat_add]
      exact Nat.mod_eq_of_lt (hs hst)
    simp only [Event.counts, hadd, h1, h2]
  | _ => simp only [Event.counts, Proc.clock, h1, h2]

theorem Turned.measures {m m' : Machine} {recent : Slot → Nat × Nat} (h : Turned m ev m' i)
    (hi : (m'.sys.proc i).state ≠ .UNUSED)
    (hm : (m.sys.proc i).state ≠ .UNUSED → (m.sys.proc i).Measures (recent i)) (hc : ev.Restarts m)
    (hd : ev.Dispatches m m' i → ∃ c, ev = .round c ∧ m.cpu c = none ∧
      best m.seen (List.finRange NPROC) none = some i) :
    (m'.sys.proc i).Measures (noteTicks ev m m' recent i) := by
  have hzero (hdi : ev.Dispatches m m' i) :
      (m.sys.proc i).my_rtime = 0 ∧ (m.sys.proc i).my_stime = 0 := by
    obtain ⟨c, he, hcpu, hbest⟩ := hd hdi
    exact hc.fresh c i he hcpu hbest
  have hsame (hu : (m.sys.proc i).state ≠ .UNUSED) (ht : ev ≠ .tick) :
      ((m.sys.proc i).my_rtime.toNat, (m.sys.proc i).my_stime.toNat) =
        ev.counts (m.sys.proc i).state (recent i) := by
    rw [Event.counts_of_ne ht, (hm hu).1, (hm hu).2]
  by_cases hscan : ev.Scans m
  · have ht : ev ≠ .tick := by
      obtain ⟨c, rfl, _⟩ := hscan
      simp
    have hpass := h.scan hscan
    rw [Machine.seen, Proc.refresh_clock] at hpass
    exact hpass.measures hi hzero fun hu _ => hsame hu ht
  by_cases hreset : ev.Resets m i
  · have ht : ev ≠ .tick := by
      obtain ⟨_, _, _, rfl, _⟩ := hreset
      simp
    exact (h.reset hreset).measures hi hzero fun hu _ => hsame hu ht
  by_cases htick : ev = .tick
  · have hpass := h.tick htick
    rw [m.ticked_clock i] at hpass
    refine hpass.measures hi (fun hdi => ?_) fun hu _ => ?_
    · obtain ⟨c, he, _⟩ := hdi
      rw [htick] at he
      cases he
    · rw [htick]
      exact (hm hu).tick (hc.fits htick i).1 (hc.fits htick i).2
  · exact (h.rest hscan hreset htick).measures hi hzero fun hu _ => hsame hu htick

/-- The counters measure what they should. -/
structure TicksTell (L : Layout) (m : Machine) (recent : Slot → Nat × Nat) : Prop where
  sound : Sound L m.sys
  measures : ∀ i, (m.sys.proc i).state ≠ .UNUSED → (m.sys.proc i).Measures (recent i)

theorem TicksTell.event {m : Machine} (h : TicksTell L m recent) (hc : ev.Restarts m) :
    Wp (Machine.event L ev) AnyError (fun _ m' => TicksTell L m' (noteTicks ev m m' recent)) m := by
  refine ((h.sound.event ev).and (event_dispatches L ev)).mono ?_
  rintro _ m' ⟨⟨hs, hall⟩, hd⟩
  exact ⟨hs, fun i hi => (hall i hi).measures hi (h.measures i) hc (hd i)⟩

/-- In a run in which only processes that have counted no ticks are switched to, the counters that
`_rbi` reads are the ticks since the last switch. -/
theorem recent_ticks (L : Layout) (ram : Nat → Page) (beyond : Nat → BitVec 32) {m₀ m : Machine}
    {recent : Slot → Nat × Nat} {i : Slot}
    (hboot : onSys (boot L) (Machine.start ram beyond) = .ok ((), m₀))
    (h : Traced (Machine.event L) Event.Restarts noteTicks m₀ (fun _ => (0, 0)) m recent)
    (hi : (m.sys.proc i).state ≠ .UNUSED) :
    (m.sys.proc i).my_rtime.toNat = (recent i).1 ∧ (m.sys.proc i).my_stime.toNat = (recent i).2 := by
  obtain ⟨hs, htab, _⟩ := boot_sound hboot
  have htell : TicksTell L m recent := by
    refine h.keeps ⟨hs, fun i hu => ?_⟩ fun ev m recent hm hc => hm.event hc
    rw [Proc.Measures, (htab.newborn i hu).my_rtime, (htab.newborn i hu).my_stime]
    exact ⟨rfl, rfl⟩
  exact htell.measures i hi

/-- The first process is switched to, and runs for one tick. -/
theorem recent_ticks_tick :
    ∃ m₀ m recent i, onSys (boot imageLayout) (Machine.start (fun _ _ => 0) fun _ => 0) = .ok ((), m₀) ∧
      Traced (Machine.event imageLayout) Event.Restarts noteTicks m₀ (fun _ => (0, 0)) m recent ∧
      (m.sys.proc i).state ≠ .UNUSED ∧ (m.sys.proc i).my_rtime.toNat = (recent i).1 := by
  generalize imageLayout = L
  generalize (fun _ _ => 0 : Nat → Page) = ram
  generalize (fun _ => 0 : Nat → BitVec 32) = beyond
  obtain ⟨m₀, p, g, r, x, hboot, hb, htab, hcpu, hev₁⟩ := boot_dispatch L ram beyond
  have hl₀ := htab.lone hb
  have hl₁ := hl₀.dispatched 0
  have hrun₁ : Traced (Machine.event L) Event.Restarts noteTicks m₀ (fun _ => (0, 0))
      (m₀.dispatched 0 p) (noteTicks (.round 0) m₀ (m₀.dispatched 0 p) fun _ => (0, 0)) := by
    refine .step .refl ⟨fun c q _ _ hq => ?_, by simp⟩ hev₁
    obtain rfl : q = p := hl₀.best hq
    have hc := hl₀.clock
    injection hc with h1 h2
    injection h2 with h2 _
    exact ⟨h1, h2⟩
  have hrun₂ : Traced (Machine.event L) Event.Restarts noteTicks m₀ (fun _ => (0, 0))
      (m₀.dispatched 0 p).ticked (noteTicks .tick (m₀.dispatched 0 p) (m₀.dispatched 0 p).ticked
        (noteTicks (.round 0) m₀ (m₀.dispatched 0 p) fun _ => (0, 0))) := by
    refine .step hrun₁ ⟨by simp, fun _ i => ⟨fun hi => ?_, fun hi => ?_⟩⟩ ((m₀.dispatched 0 p).event_tick L)
    · obtain rfl : i = p := hl₁.eq_of_used (by rw [hi]; simp)
      rw [hl₁.my_rtime]
      decide
    · obtain rfl : i = p := hl₁.eq_of_used (by rw [hi]; simp)
      rw [hl₁.state] at hi
      cases hi
  have hp : ((m₀.dispatched 0 p).ticked.sys.proc p).state ≠ .UNUSED := by
    rw [hl₁.ticked.state]
    simp
  exact ⟨m₀, _, _, p, hboot, hrun₂, hp, (recent_ticks L ram beyond hboot hrun₂ hp).1⟩

theorem boot_recent_ticks (L : Layout) (ram : Nat → Page) (beyond : Nat → BitVec 32) :
    ∃ m₀ m recent i, onSys (boot L) (Machine.start ram beyond) = .ok ((), m₀) ∧
      Traced (Machine.event L) (fun _ _ => True) noteTicks m₀ (fun _ => (0, 0)) m recent ∧
      (m.sys.proc i).state ≠ .UNUSED ∧ (m.sys.proc i).my_rtime.toNat = 1 ∧ recent i = (0, 0) := by
  obtain ⟨m₀, p, g, r, x, hboot, hb, htab, hcpu, hev₁⟩ := boot_dispatch L ram beyond
  have hl₂ := ((htab.lone hb).dispatched 0).ticked
  have hcpu₂ : (m₀.dispatched 0 p).ticked.cpu 0 = some p := by
    show (m₀.dispatched 0 p).cpu 0 = some p
    rw [m₀.dispatched_cpu, Function.update_self]
  have hi₂ : Inv L (m₀.dispatched 0 p).ticked.sys := by
    have hq : Quiet _ (m₀.dispatched 0 p).ticked.sys := (clockintr_quiet _ _).of_eq_ok rfl
    exact hq.inv ((Machine.dispatched_quiet 0 hb.state).inv hb.toInv)
  -- the first process runs for a tick and gives up the CPU
  obtain ⟨_, t₃, hs₃, ht₃⟩ := hi₂.timer hl₂.state hl₂.killed ⟨0, 0⟩
  obtain ⟨m₃, hev₃, rfl, hcpu₃⟩ := Machine.event_user hcpu₂ rfl hs₃
  have hl₃ := hl₂.timer ht₃
  rw [if_neg (by rw [hl₃.state]; simp)] at hcpu₃
  have h0 : m₃.cpu 0 = none := by rw [hcpu₃, Function.update_self]
  -- and is switched to again
  have hev₄ := hl₃.round_dispatch (L := L) h0
  have hl₄ := hl₃.dispatched 0
  have hrun : Traced (Machine.event L) (fun _ _ => True) noteTicks m₀ (fun _ => (0, 0)) (m₃.dispatched 0 p) _ :=
    (((Traced.refl.step trivial hev₁).step trivial (Machine.event_tick L _)).step trivial hev₃).step
      trivial hev₄
  refine ⟨m₀, _, _, p, hboot, hrun, by rw [hl₄.state]; simp, by rw [hl₄.my_rtime]; decide, if_pos (.inr ?_)⟩
  exact ⟨0, rfl, h0, by rw [m₃.dispatched_cpu, Function.update_self]⟩

/-- A process that has run for a tick is switched to again. -/
theorem ticks_not_restarted :
    ∃ m₀ m recent i, onSys (boot imageLayout) (Machine.start (fun _ _ => 0) fun _ => 0) = .ok ((), m₀) ∧
      Traced (Machine.event imageLayout) (fun _ _ => True) noteTicks m₀ (fun _ => (0, 0)) m recent ∧
      (m.sys.proc i).state ≠ .UNUSED ∧ (m.sys.proc i).my_rtime.toNat = 1 ∧ recent i = (0, 0) :=
  boot_recent_ticks imageLayout _ _

end PbsCow

import PbsCow.Clocks

namespace PbsCow
set_option autoImplicit true

/-- The event is a scan of the table. -/
def Event.Scans (m : Machine) (ev : Event) : Prop := ∃ c, ev = .round c ∧ m.cpu c = none

/-- The event is a successful `set_priority` for the process in slot `i`. -/
def Event.Resets (m : Machine) (ev : Event) (i : Slot) : Prop :=
  ∃ c op p, ev = .user c op ∧ m.cpu c = some p ∧ op.slot = some p ∧ op.Resets m.sys i

/-- What an event makes of what `_rbi` reads of the process in slot `i`. -/
structure Turned (m : Machine) (ev : Event) (m' : Machine) (i : Slot) : Prop where
  scan : ev.Scans m → Passed m.sys m'.sys i (m.seen i).clock
  reset : ev.Resets m i → Passed m.sys m'.sys i
    ((m.sys.proc i).my_rtime, (m.sys.proc i).my_stime, (m.sys.proc i).my_wtime, 25)
  tick : ev = .tick → Passed m.sys m'.sys i (m.ticked.sys.proc i).clock
  rest : ¬ ev.Scans m → ¬ ev.Resets m i → ev ≠ .tick → Passed m.sys m'.sys i (m.sys.proc i).clock

theorem Event.not_resets {m : Machine} {ev : Event} (h : ∀ c op, ev ≠ .user c op) (i : Slot) :
    ¬ ev.Resets m i :=
  fun ⟨c, op, _, he, _⟩ => h c op he

/-- The invariant of the runs of the machine. -/
structure Sound (L : Layout) (t : Sys) : Prop where
  inv : Inv L t
  pids : Pids t

theorem Quiet.sound {t t' : Sys} (h : Quiet t t') (hn : t'.nextpid = t.nextpid) (hs : Sound L t) :
    Sound L t' :=
  ⟨h.inv hs.inv, h.pids hn hs.pids⟩

theorem Quiet.passed {t t' : Sys} (h : Quiet t t') (hi : (t'.proc i).state ≠ .UNUSED) :
    Passed t t' i (t'.proc i).clock :=
  .inr ⟨h.pid i, fun hu => hi ((h.unused i).2 hu), rfl⟩

theorem round_turned {m : Machine} (h : Sound L m.sys) (c : Nat) :
    Wp (Machine.event L (.round c)) AnyError (fun _ m' => Sound L m'.sys ∧
      ∀ i, (m'.sys.proc i).state ≠ .UNUSED → Turned m (.round c) m' i) m := by
  have hreset (i : Slot) : ¬ (Event.round c).Resets m i := Event.not_resets (by simp) i
  have hscan {m' : Machine} (hc : m.cpu c = none) (hq : Quiet m.sys m'.sys)
      (he : ∀ i, (m'.sys.proc i).clock = (m.seen i).clock) (i : Slot)
      (hi : (m'.sys.proc i).state ≠ .UNUSED) : Turned m (.round c) m' i := by
    refine ⟨fun _ => ?_, fun h => (hreset i h).elim, by simp, fun h => (h ⟨c, rfl, hc⟩).elim⟩
    rw [← he i]
    exact hq.passed hi
  refine wp_round (fun hb => ⟨h, fun i hi => ?_⟩) (fun hc _ => ?_) fun p hc _ hp => ?_
  · refine ⟨fun ⟨_, he, hc⟩ => ?_, fun h => (hreset i h).elim, by simp, fun _ _ _ => ?_⟩
    · cases he
      exact (hb hc).elim
    · exact (Quiet.refl m.sys).passed hi
  · have hq := m.scanned_quiet (List.finRange NPROC)
    exact ⟨hq.sound rfl h, hscan hc hq fun i => by rw [m.scanned_proc i]⟩
  · have hq := Machine.dispatched_quiet c hp
    refine ⟨hq.sound rfl h, hscan hc hq fun i => ?_⟩
    rw [m.dispatched_proc c p i]
    split <;> rfl

theorem user_turned {m : Machine} (h : Sound L m.sys) (c : Nat) (op : Op) :
    Wp (Machine.event L (.user c op)) AnyError (fun _ m' => Sound L m'.sys ∧
      ∀ i, (m'.sys.proc i).state ≠ .UNUSED → Turned m (.user c op) m' i) m := by
  have hscan : ¬ (Event.user c op).Scans m := by
    rintro ⟨_, he, _⟩
    cases he
  have hpost : Wp (Machine.event L (.user c op)) AnyError (fun _ m' => Sound L m'.sys ∧
      ∀ i, (m'.sys.proc i).state ≠ .UNUSED →
        (¬ (Event.user c op).Resets m i → Passed m.sys m'.sys i (m.sys.proc i).clock) ∧
        ((Event.user c op).Resets m i → Passed m.sys m'.sys i
          ((m.sys.proc i).my_rtime, (m.sys.proc i).my_stime, (m.sys.proc i).my_wtime, 25))) m := by
    refine wp_user (Q := fun t => Sound L t ∧ ∀ i, (t.proc i).state ≠ .UNUSED →
        (¬ (Event.user c op).Resets m i → Passed m.sys t i (m.sys.proc i).clock) ∧
        ((Event.user c op).Resets m i → Passed m.sys t i
          ((m.sys.proc i).my_rtime, (m.sys.proc i).my_stime, (m.sys.proc i).my_wtime, 25)))
      (fun hskip => ⟨h, fun i hi => ⟨fun _ => (Quiet.refl m.sys).passed hi, ?_⟩⟩) fun p hcpu hop => ?_
    · rintro ⟨_, _, p, he, hcpu, hop, _⟩
      cases he
      exact (hskip p hcpu hop).elim
    · refine (step_passed h.inv h.pids).mono ?_
      rintro _ t' ⟨hi', hp', hall⟩
      refine ⟨⟨hi', hp'⟩, fun i hi => ⟨fun hno => (hall i hi).1 fun hr => ?_, fun hyes => (hall i hi).2 ?_⟩⟩
      · exact hno ⟨c, op, p, rfl, hcpu, hop, hr⟩
      · obtain ⟨_, _, _, he, _, _, hr⟩ := hyes
        cases he
        exact hr
  refine hpost.mono ?_
  rintro _ m' ⟨hs, hall⟩
  exact ⟨hs, fun i hi => ⟨fun hsc => (hscan hsc).elim, (hall i hi).2, by simp,
    fun _ hno _ => (hall i hi).1 hno⟩⟩

theorem Machine.event_tick (L : Layout) (m : Machine) : Machine.event L .tick m = .ok ((), m.ticked) := rfl

theorem tick_turned {m : Machine} (h : Sound L m.sys) :
    Wp (Machine.event L .tick) AnyError (fun _ m' => Sound L m'.sys ∧
      ∀ i, (m'.sys.proc i).state ≠ .UNUSED → Turned m .tick m' i) m := by
  have hq : Quiet m.sys m.ticked.sys := (clockintr_quiet (m.cpu 0) m.sys).of_eq_ok rfl
  have hscan : ¬ Event.tick.Scans m := by
    rintro ⟨_, he, _⟩
    cases he
  refine .of_ok (m.event_tick L) ⟨hq.sound rfl h, fun i hi => ?_⟩
  exact ⟨fun hsc => (hscan hsc).elim, fun hr => (Event.not_resets (by simp) i hr).elim,
    fun _ => hq.passed hi, fun _ _ ht => (ht rfl).elim⟩

theorem Sound.event {m : Machine} (h : Sound L m.sys) (ev : Event) :
    Wp (Machine.event L ev) AnyError (fun _ m' => Sound L m'.sys ∧
      ∀ i, (m'.sys.proc i).state ≠ .UNUSED → Turned m ev m' i) m := by
  cases ev with
  | round c => exact round_turned h c
  | user c op => exact user_turned h c op
  | tick => exact tick_turned h

theorem Sys.wakeup_clock (t : Sys) (me : Option Slot) (chan : Chan) (i : Slot) :
    ((t.wakeup me chan).proc i).clock = (t.proc i).clock := by
  simp only [wakeup]
  split <;> rfl

theorem Sys.updateTime_clock (t : Sys) (i : Slot) :
    (t.updateTime.proc i).clock = (t.proc i).clock ∧ (t.updateTime.proc i).state = (t.proc i).state := by
  simp only [updateTime]
  split <;> exact ⟨rfl, rfl⟩

/-- What `_rbi` reads after a tick. -/
def Proc.tickClock (q : Proc) : BitVec 32 × BitVec 32 × BitVec 32 × BitVec 32 :=
  match q.state with
  | .RUNNING => (q.my_rtime + 1, q.my_stime, q.my_wtime, q.rbi)
  | .SLEEPING => (q.my_rtime, q.my_stime + 1, q.my_wtime, q.rbi)
  | .RUNNABLE => (q.my_rtime, q.my_stime, q.my_wtime + 1, q.rbi)
  | _ => q.clock

theorem Machine.ticked_clock (m : Machine) (i : Slot) :
    (m.ticked.sys.proc i).clock = (m.sys.proc i).tickClock := by
  have hcount (t : Sys) : (t.countTicks.proc i).clock = (t.proc i).tickClock := by
    simp only [Sys.countTicks, Proc.tickClock]
    cases (t.proc i).state <;> rfl
  have hsame (q q' : Proc) (hc : q'.clock = q.clock) (hs : q'.state = q.state) :
      q'.tickClock = q.tickClock := by
    injection hc with h1 h2
    injection h2 with h2 h3
    injection h3 with h3 h4
    simp only [Proc.tickClock, Proc.clock, hs, h1, h2, h3, h4]
  obtain ⟨hc, hs⟩ := ({ m.sys with ticks := m.sys.ticks + 1 } : Sys).updateTime_clock i
  rw [ticked, Sys.wakeup_clock, hcount]
  exact hsame _ _ hc hs

theorem Proc.tickClock_rbi (q : Proc) : q.tickClock.2.2.2 = q.rbi := by
  rw [tickClock]
  split <;> rfl

/-- The invariant holds after boot. -/
theorem boot_sound {m₀ : Machine} (hboot : onSys (boot L) (Machine.start ram beyond) = .ok ((), m₀)) :
    Sound L m₀.sys ∧ BootTable m₀.sys ∧ ∀ i, (m₀.sys.proc i).static_pri.toNat ≤ 100 := by
  obtain ⟨t, p, g, r, x, ht, hb, hboot'⟩ := onSys_boot L ram beyond
  rw [hboot] at hboot'
  injection hboot' with he
  obtain rfl : m₀.sys = t := congrArg (fun r : Unit × Machine => r.2.sys) he
  have htab := (boot_table L ram).of_eq_ok ht
  refine ⟨⟨hb.toInv, ⟨htab.marked.next, fun i => ?_, fun i hu => ?_⟩⟩, htab,
    (stable_static_pri.boot L ram).of_eq_ok ht⟩
  · rw [htab.next]
    by_cases hu : (m₀.sys.proc i).state = .UNUSED
    · rw [htab.marked.pid i hu]
      decide
    · rw [htab.pid i hu]
      decide
  · rw [htab.pid i hu]
    decide

/-- The event allocates the process in slot `i`. -/
def Allocated (m m' : Machine) (i : Slot) : Prop :=
  (m'.sys.proc i).pid ≠ (m.sys.proc i).pid ∧ (m'.sys.proc i).state ≠ .UNUSED

end PbsCow

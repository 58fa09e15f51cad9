import PbsCow.Switches
import PbsCow.Turns

namespace PbsCow
set_option autoImplicit true

/-- The first process is the only one. -/
structure Machine.Lone (m : Machine) (p : Slot) (st : ProcState)
    (clock : BitVec 32 × BitVec 32 × BitVec 32 × BitVec 32) : Prop where
  state : (m.sys.proc p).state = st
  alone : ∀ i, i ≠ p → (m.sys.proc i).state = .UNUSED
  pid : ∀ i, (m.sys.proc i).pid = 1 ↔ i = p
  killed : (m.sys.proc p).killed = false
  clock : (m.sys.proc p).clock = clock

theorem BootTable.lone {m : Machine} (h : BootTable m.sys) (hb : Booted L m.sys p .RUNNABLE g r x) :
    m.Lone p .RUNNABLE (0, 0, 0, 25) := by
  have hp : (m.sys.proc p).state ≠ .UNUSED := by
    rw [hb.state]
    simp
  refine ⟨hb.state, hb.alone, fun i => ⟨fun hi => ?_, fun hi => ?_⟩, hb.killed,
    (h.newborn p hp).clock⟩
  · by_contra hne
    rw [h.marked.pid i (hb.alone i hne)] at hi
    cases hi
  · rw [hi]
    exact h.pid p hp

theorem Proc.refresh_pid (q : Proc) : q.refresh.pid = q.pid := by
  rw [refresh, _rbi]
  split <;> rfl

/-- What a scan leaves of what it reads. -/
theorem Proc.refresh_clock (q : Proc) : q.refresh.clock =
    (q.my_rtime, q.my_stime, q.my_wtime, if q.rbi = 25 then -1 else q.rbi) := by
  rw [refresh, _rbi]
  split <;> rfl

theorem Machine.Lone.of_slots {m m' : Machine} (h : m.Lone p st k)
    (hs : ∀ i, i ≠ p → (m'.sys.proc i).state = (m.sys.proc i).state)
    (hpid : ∀ i, (m'.sys.proc i).pid = (m.sys.proc i).pid)
    (hk : (m'.sys.proc p).killed = (m.sys.proc p).killed) (hst : (m'.sys.proc p).state = st')
    (hc : (m'.sys.proc p).clock = k') : m'.Lone p st' k' := by
  refine ⟨hst, fun i hi => ?_, fun i => ?_, by rw [hk, h.killed], hc⟩
  · rw [hs i hi, h.alone i hi]
  · rw [hpid i]
    exact h.pid i

theorem Machine.Lone.seen_clock {m : Machine} (h : m.Lone p st (a, b, w, f)) :
    (m.seen p).clock = (a, b, w, if f = 25 then -1 else f) := by
  have hc := h.clock
  injection hc with h1 h2
  injection h2 with h2 h3
  injection h3 with h3 h4
  rw [seen, Proc.refresh_clock, h1, h2, h3, h4]

theorem Machine.Lone.scanned {m : Machine} (h : m.Lone p st (a, b, w, f)) :
    (m.scanned (List.finRange NPROC)).Lone p st (a, b, w, if f = 25 then -1 else f) := by
  refine h.of_slots (fun i _ => ?_) (fun i => ?_) ?_ ?_ ?_ <;> rw [m.scanned_proc]
  · exact Proc.refresh_state _
  · exact Proc.refresh_pid _
  · exact Proc.refresh_killed _
  · exact (Proc.refresh_state _).trans h.state
  · exact h.seen_clock

theorem Machine.Lone.dispatched {m : Machine} (h : m.Lone p st (a, b, w, f)) (c : Nat) :
    (m.dispatched c p).Lone p .RUNNING (a, b, w, if f = 25 then -1 else f) := by
  have hp := m.dispatched_proc c p p
  rw [if_pos rfl] at hp
  refine h.of_slots (fun i hi => ?_) (fun i => ?_) ?_ ?_ ?_
  · rw [m.dispatched_state, if_neg hi]
  · rw [m.dispatched_proc]
    split <;> exact Proc.refresh_pid _
  · rw [hp]
    exact Proc.refresh_killed _
  · rw [hp]
  · rw [hp]
    exact h.seen_clock

theorem Machine.Lone.timer {m : Machine} {m' : Machine} (h : m.Lone p .RUNNING k)
    (ht : m'.sys.proc = (m.sys.setProc p fun q => { q with state := .RUNNABLE }).proc) :
    m'.Lone p .RUNNABLE k := by
  refine h.of_slots (fun i hi => ?_) (fun i => ?_) ?_ ?_ ?_ <;> rw [ht]
  · rw [Sys.setProc_of_ne _ hi]
  · by_cases hi : i = p
    · rw [hi, Sys.setProc_self]
    · rw [Sys.setProc_of_ne _ hi]
  · rw [Sys.setProc_self]
  · rw [Sys.setProc_self]
  · rw [Sys.setProc_self]
    exact h.clock

theorem Machine.Lone.eq_of_used {m : Machine} (h : m.Lone p st k) (hi : (m.sys.proc i).state ≠ .UNUSED) :
    i = p := by
  by_contra hne
  exact hi (h.alone i hne)

theorem Machine.Lone.my_rtime {m : Machine} (h : m.Lone p st (a, b, w, f)) :
    (m.sys.proc p).my_rtime = a := congrArg (fun c => c.1) h.clock

theorem Machine.Lone.ticked {m : Machine} (h : m.Lone p .RUNNING (a, b, w, f)) :
    m.ticked.Lone p .RUNNING (a + 1, b, w, f) := by
  have hq : Quiet m.sys m.ticked.sys := (clockintr_quiet (m.cpu 0) m.sys).of_eq_ok rfl
  have hp : m.ticked.sys.proc p = { m.sys.proc p with
      rtime := (m.sys.proc p).rtime + 1, my_rtime := (m.sys.proc p).my_rtime + 1 } := by
    simp [Machine.ticked, Sys.wakeup, Sys.countTicks, Sys.updateTime, h.state]
  refine h.of_slots (fun i hi => ?_) hq.pid ?_ ?_ ?_
  · rw [m.ticked_unused (h.alone i hi)]
  · rw [hp]
  · rw [hp, h.state]
  · rw [m.ticked_clock, Proc.tickClock, h.state]
    have hc := h.clock
    injection hc with h1 h2
    injection h2 with h2 h3
    injection h3 with h3 h4
    rw [h1, h2, h3, h4]

theorem Machine.Lone.best {m : Machine} (h : m.Lone p st k)
    (hq : best m.seen (List.finRange NPROC) none = some q) : q = p := by
  have hrun := (best_spec hq).1
  rw [seen, Proc.refresh_state] at hrun
  exact h.eq_of_used (by rw [hrun]; simp)

theorem Machine.Lone.round_dispatch {m : Machine} (h : m.Lone p .RUNNABLE k) (hc : m.cpu c = none) :
    event L (.round c) m = .ok ((), m.dispatched c p) := by
  obtain ⟨q, hq, hs⟩ := scheduler_some h.state c
  rw [h.best hq] at hs
  exact (event_round hc).trans hs

theorem Machine.Lone.round_idle {m : Machine} (h : m.Lone p .RUNNING k) (hc : m.cpu c = none) :
    event L (.round c) m = .ok ((), m.scanned (List.finRange NPROC)) := by
  refine (event_round hc).trans (scheduler_none (fun i hi => ?_) c)
  by_cases hip : i = p
  · rw [hip, h.state] at hi
    cases hi
  · rw [h.alone i hip] at hi
    cases hi

end PbsCow

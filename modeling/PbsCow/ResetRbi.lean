import PbsCow.LoneRuns
import PbsCow.SharedText

namespace PbsCow
set_option autoImplicit true

/-- Keeps the slots whose process has been allocated or has had its priority set, and has not been
compared with others since. -/
def noteReset (ev : Event) (m m' : Machine) (reset : Slot → Prop) (i : Slot) : Prop :=
  Allocated m m' i ∨ ev.Resets m i ∨
    reset i ∧ ¬ (ev.Scans m ∧ (m.sys.proc i).state = .RUNNABLE)

/-- The event is not a scan while a process that is not runnable has its flag set. -/
def Event.Spares (m : Machine) (ev : Event) : Prop :=
  ev.Scans m → ∀ i, (m.sys.proc i).state ≠ .UNUSED → (m.sys.proc i).rbi = 25 →
    (m.sys.proc i).state = .RUNNABLE

/-- The flag tells which processes have been reset. -/
structure FlagsTell (L : Layout) (m : Machine) (reset : Slot → Prop) : Prop where
  sound : Sound L m.sys
  pri : ∀ i, (m.sys.proc i).static_pri.toNat ≤ 100
  flag : ∀ i, (m.sys.proc i).state ≠ .UNUSED → (reset i ↔ (m.sys.proc i).rbi = 25)

theorem Proc.refresh_rbi_ne (q : Proc) : q.refresh.rbi ≠ 25 := by
  rw [refresh, _rbi]
  split
  · show (-1 : BitVec 32) ≠ 25
    decide
  · next h => exact h

theorem Passed.flag {m m' : Machine} (h : Passed m.sys m'.sys i clock)
    (hi : (m'.sys.proc i).state ≠ .UNUSED)
    (hlive : (m.sys.proc i).state ≠ .UNUSED → (ev.Resets m i ∨
      reset i ∧ ¬ (ev.Scans m ∧ (m.sys.proc i).state = .RUNNABLE) ↔ clock.2.2.2 = 25)) :
    noteReset ev m m' reset i ↔ (m'.sys.proc i).rbi = 25 := by
  rcases h with ⟨hp, hk⟩ | ⟨hp, hu, hk⟩
  · exact iff_of_true (.inl ⟨hp, hi⟩) (congrArg (fun c => c.2.2.2) hk)
  · have hrbi : (m'.sys.proc i).rbi = clock.2.2.2 := congrArg (fun c => c.2.2.2) hk
    have hold : ¬ Allocated m m' i := fun ha => ha.1 hp
    rw [hrbi, ← hlive hu]
    exact or_iff_right hold

theorem Turned.flag {m m' : Machine} {reset : Slot → Prop} (h : Turned m ev m' i) (hi : (m'.sys.proc i).state ≠ .UNUSED)
    (hf : (m.sys.proc i).state ≠ .UNUSED → (reset i ↔ (m.sys.proc i).rbi = 25))
    (hc : ev.Spares m) : noteReset ev m m' reset i ↔ (m'.sys.proc i).rbi = 25 := by
  by_cases hscan : ev.Scans m
  · refine (h.scan hscan).flag hi fun hu => iff_of_false ?_ (Proc.refresh_rbi_ne _)
    rintro (⟨_, _, _, rfl, _⟩ | ⟨hr, hno⟩)
    · obtain ⟨_, he, _⟩ := hscan
      cases he
    · exact hno ⟨hscan, hc hscan i hu ((hf hu).1 hr)⟩
  by_cases hreset : ev.Resets m i
  · exact (h.reset hreset).flag hi fun _ => iff_of_true (.inl hreset) rfl
  have hkeep (hu : (m.sys.proc i).state ≠ .UNUSED) : (ev.Resets m i ∨
      reset i ∧ ¬ (ev.Scans m ∧ (m.sys.proc i).state = .RUNNABLE) ↔ (m.sys.proc i).rbi = 25) := by
    rw [← hf hu]
    simp [hreset, hscan]
  by_cases htick : ev = .tick
  · refine (h.tick htick).flag hi fun hu => (hkeep hu).trans ?_
    rw [m.ticked_clock i, Proc.tickClock_rbi]
  · exact (h.rest hscan hreset htick).flag hi hkeep

theorem FlagsTell.event {m : Machine} (h : FlagsTell L m reset) (hc : ev.Spares m) :
    Wp (Machine.event L ev) AnyError (fun _ m' => FlagsTell L m' (noteReset ev m m' reset)) m := by
  have hpri := stable_static_pri.event (L := L) h.pri ev fun _ _ _ i => by
    rw [Proc.refresh_static_pri]
    exact h.pri i
  refine ((h.sound.event ev).and hpri).mono ?_
  rintro _ m' ⟨⟨hs, hall⟩, hp⟩
  exact ⟨hs, hp, fun i hi => (hall i hi).flag hi (h.flag i) hc⟩

/-- `set_priority` does not yield if the priority of no process that it names gets better. -/
theorem setPriorityScan_stays {t : Sys} {pid : Int} (h0 : 0 ≤ n) (h100 : n ≤ 100) (l : List Slot) (old : Int)
    (h : ∀ i, (t.proc i).pid = pid → (t.proc i).static_pri.toInt ≤ n) :
    Wp (setPriorityScan pid n l old false) AnyError (fun r _ => r.2 = false) t := by
  induction l generalizing t old with
  | nil => exact wp_pure.2 rfl
  | cons p l ih =>
    rw [setPriorityScan, wp_bind, wp_get]
    refine .ite (fun hp => ?_) fun _ => ih old h
    have hle : ¬ (t.proc p).static_pri.toInt > n := not_lt.2 (h p hp)
    rw [wp_bind, wp_setProc, decide_eq_false hle]
    refine ih _ fun i hi => ?_
    by_cases hip : i = p
    · rw [hip, t.setProc_self]
      show (BitVec.ofInt 32 n).toInt ≤ n
      rw [BitVec.toInt_ofInt, Int.bmod_eq_of_le (by omega) (by omega)]
    · rw [t.setProc_of_ne hip] at hi ⊢
      exact h i hi

/-- A `set_priority` that does not yield. -/
theorem Inv.setPriority_stays {t : Sys} {p : Slot} {pid : Int} (h : Inv L t)
    (hp : (t.proc p).state = .RUNNING) (hk : (t.proc p).killed = false) (h0 : 0 ≤ n) (h100 : n ≤ 100)
    (hle : ∀ i, (t.proc i).pid = pid → (t.proc i).static_pri.toInt ≤ n) (regs : Regs) :
    ∃ out t', PbsCow.step L (.trap p regs (.syscall (.setPriority pid n))) t = .ok (out, t') ∧
      (∀ i, (t'.proc i).state = (t.proc i).state) ∧ ∀ i, (t.proc i).Reset pid (t'.proc i) := by
  have hscan (t₁ : Sys) (ht₁ : t₁.proc = t.proc) : Wp (PbsCow.sysSetPriority pid n) NoError (fun r t' =>
      r.2 = false ∧ Quiet t₁ t' ∧ (∀ i, (t'.proc i).state = (t.proc i).state) ∧
      ∀ i, (t.proc i).Reset pid (t'.proc i)) t₁ := by
    have hspec := sysSetPriority_spec (t := t₁) pid h0 h100
    have hstay : Wp (setPriorityScan pid n (List.finRange NPROC) (-1) false) AnyError (fun r _ => r.2 = false) t₁ :=
      setPriorityScan_stays h0 h100 _ (-1) (by rw [ht₁]; exact hle)
    have hquiet : Wp (setPriorityScan pid n (List.finRange NPROC) (-1) false) NoError
        (fun _ t' => Quiet t₁ t' ∧ ∀ i, (t'.proc i).state = (t₁.proc i).state) t₁ := Quiet.setPriorityScan _
    have hif : PbsCow.sysSetPriority pid n = setPriorityScan pid n (List.finRange NPROC) (-1) false := by
      rw [PbsCow.sysSetPriority]
      exact if_neg (by omega)
    rw [hif] at hspec ⊢
    rw [ht₁] at hspec hquiet
    refine (hquiet.and (hstay.and hspec)).mono ?_
    rintro r t' ⟨⟨hq, hs⟩, hy, hr⟩
    exact ⟨hy, hq, hs, hr⟩
  have hset : Op.SetsPriority t (.trap p regs (.syscall (.setPriority pid n))) pid :=
    ⟨p, regs, n, rfl, h0, h100, hp, hk⟩
  have hreset := step_resets (L := L) hset
  have htrap : Wp (PbsCow.usertrap L p regs (.syscall (.setPriority pid n))) NoError
      (fun _ t' => ∀ i, (t'.proc i).state = (t.proc i).state) t := by
    refine h.usertrap_syscall hp hk (fun t₁ ht₁ => ?_) regs
    rw [PbsCow.syscall]
    refine .bind (hscan t₁ ht₁.proc) ?_
    rintro ⟨ret, do_yield⟩ t₂ ⟨rfl, hq, hs, hr⟩
    refine .ite_neg (by simp) (wp_pure.2 ⟨by simp, hq.inv (ht₁.toInv h), ?_, ?_, fun t' ht' i => ?_⟩)
    · rw [hs, hp]
    · rw [(hr p).killed, hk]
    · rw [ht'.proc, hs]
  obtain ⟨r, t', hr, hs⟩ := htrap.exists_ok
  have hstep : PbsCow.step L (.trap p regs (.syscall (.setPriority pid n))) t = .ok (.reply r, t') := by
    simp only [PbsCow.step, whenState, get, getThe, MonadStateOf.get, StateT.get, bind, StateT.bind,
      Except.bind, pure, Except.pure, hp, if_true, hr]
    rfl
  exact ⟨_, t', hstep, hs, hreset.of_eq_ok hstep⟩

theorem boot_reset_spent (L : Layout) (ram : Nat → Page) (beyond : Nat → BitVec 32) :
    ∃ m₀ m reset i, onSys (boot L) (Machine.start ram beyond) = .ok ((), m₀) ∧
      Traced (Machine.event L) (fun _ _ => True) noteReset m₀
        (fun i => (m₀.sys.proc i).state ≠ .UNUSED) m reset ∧
      (m.sys.proc i).state = .RUNNABLE ∧ reset i ∧ (m.seen i).curr_rbi = 0 := by
  obtain ⟨m₀, p, g, r, x, hboot, hb, htab, hcpu, hev₁⟩ := boot_dispatch L ram beyond
  -- the first process runs, with its flag spent
  have hl₁ := (htab.lone hb).dispatched 0
  have hi₁ := (Machine.dispatched_quiet 0 hb.state).inv hb.toInv
  have hpri₁ : ((m₀.dispatched 0 p).sys.proc p).static_pri = 50 := by
    rw [m₀.dispatched_proc, if_pos rfl]
    exact (Proc.refresh_static_pri _).trans (htab.newborn p (by rw [hb.state]; simp)).static_pri
  have hcpu₁ := m₀.dispatched_cpu 0 p
  have hrun₁ : Traced (Machine.event L) (fun _ _ => True) noteReset m₀
    (fun i => (m₀.sys.proc i).state ≠ .UNUSED) (m₀.dispatched 0 p) _ := .step .refl trivial hev₁
  generalize m₀.dispatched 0 p = m₁ at hev₁ hl₁ hi₁ hpri₁ hcpu₁ hrun₁
  generalize noteReset _ _ _ _ = reset₁ at hrun₁
  -- it sets its own priority to the one that it has
  have hle (i : Slot) (hi : (m₁.sys.proc i).pid = 1) : (m₁.sys.proc i).static_pri.toInt ≤ 50 := by
    rw [(hl₁.pid i).1 hi, hpri₁]
    decide
  obtain ⟨_, t₂, hs₂, hst₂, hr₂⟩ := hi₁.setPriority_stays hl₁.state hl₁.killed (by decide) (by decide) hle ⟨0, 0⟩
  obtain ⟨m₂, hev₂, rfl, hcpu₂⟩ := Machine.event_user (c := 0) (by rw [hcpu₁, Function.update_self]) rfl hs₂
  rw [if_pos (by rw [hst₂, hl₁.state])] at hcpu₂
  have hl₂ : m₂.Lone p .RUNNING (0, 0, 0, 25) := by
    refine hl₁.of_slots (fun i _ => hst₂ i) (fun i => (hr₂ i).pid) (hr₂ p).killed ?_ ?_
    · rw [hst₂, hl₁.state]
    · have hc := hl₁.clock
      injection hc with h1 h2
      injection h2 with h2 h3
      injection h3 with h3 h4
      rw [(hr₂ p).clock, if_pos ((hl₁.pid p).2 rfl), h1, h2, h3]
  have hi₂ := (hi₁.step _).of_eq_ok hs₂
  have hreset₂ : (Event.user 0 (.trap p ⟨0, 0⟩ (.syscall (.setPriority 1 50)))).Resets m₁ p := by
    refine ⟨0, _, p, rfl, by rw [hcpu₁, Function.update_self], rfl, p, ⟨0, 0⟩, 50, ?_, by decide, by decide,
      hl₁.state, hl₁.killed⟩
    rw [(hl₁.pid p).2 rfl]
  -- the other CPU looks for a process, and spends the flag
  have hev₃ := hl₂.round_idle (L := L) (c := 1) (by
    rw [hcpu₂, hcpu₁, Function.update_of_ne (by decide), hcpu])
  have hl₃ := hl₂.scanned
  have hi₃ := (m₂.scanned_quiet (List.finRange NPROC)).inv hi₂.inv
  -- and then the first process becomes runnable
  obtain ⟨_, t₄, hs₄, ht₄⟩ := hi₃.timer hl₃.state hl₃.killed ⟨0, 0⟩
  obtain ⟨m₄, hev₄, rfl, _⟩ := Machine.event_user (c := 0) (by
    show m₂.cpu 0 = _
    rw [hcpu₂, hcpu₁, Function.update_self]) rfl hs₄
  have hl₄ := hl₃.timer ht₄
  refine ⟨m₀, m₄, _, p, hboot, ((hrun₁.step trivial hev₂).step trivial hev₃).step trivial hev₄,
    hl₄.state, ?_, ?_⟩
  · refine .inr (.inr ⟨.inr (.inr ⟨.inr (.inl hreset₂), ?_⟩), ?_⟩)
    · rintro ⟨_, hrun⟩
      rw [hl₂.state] at hrun
      cases hrun
    · rintro ⟨⟨_, he, _⟩, _⟩
      cases he
  · have hc := hl₄.clock
    injection hc with h1 h2
    injection h2 with h2 h3
    injection h3 with h3 h4
    rw [Machine.seen, Proc.refresh_curr_rbi, _rbi, h4, if_neg (by decide), h1, h2, h3]
    dsimp only
    decide

end PbsCow

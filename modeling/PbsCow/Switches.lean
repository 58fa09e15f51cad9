import PbsCow.BootTable
import PbsCow.Priority
import PbsCow.Rounds

namespace PbsCow
set_option autoImplicit true

/-- The scheduler has only written to the table and to its CPUs, and every process has the number of
switches to it and back as its count. -/
def Machine.Counted (m : Machine) : Prop :=
  (∀ w ∈ m.writes, w.InTable) ∧
    ∀ i, (m.sys.proc i).state ≠ .UNUSED → (m.sys.proc i).tot_sche.toInt = m.switches i

/-- The event is an operation after which the process that does it switches back to the scheduler. -/
def Event.Returns (L : Layout) (m : Machine) (ev : Event) : Prop :=
  ∃ c op p out t', ev = .user c op ∧ m.cpu c = some p ∧ op.slot = some p ∧
    step L op m.sys = .ok (out, t') ∧ (t'.proc p).state ≠ .RUNNING

theorem Event.not_returns {m : Machine} {ev : Event} (h : ∀ c op, ev ≠ .user c op) :
    ¬ ev.Returns L m :=
  fun ⟨c, op, _, _, _, he, _⟩ => h c op he

theorem stable_tot_sche : Stable fun q => q.tot_sche = 0 where
  same h hs := by
    injection hs with _ h2
    injection h2 with h2
    exact h2.trans h
  zero := rfl
  init hs := by
    injection hs with _ h2
    injection h2 with h2
  pri _ _ h := h

theorem Proc.refresh_tot_sche (q : Proc) : q.refresh.tot_sche = q.tot_sche := by
  rw [refresh, _rbi]
  split <;> rfl

theorem Proc.refresh_killed (q : Proc) : q.refresh.killed = q.killed := by
  rw [refresh, _rbi]
  split <;> rfl

theorem Machine.scanned_writes (m : Machine) (l : List Slot) :
    (m.scanned l).writes = (l.map fun i : Slot => Loc.proc i).reverse ++ m.writes := rfl

theorem Machine.dispatched_writes (m : Machine) (c : Nat) (p : Slot) :
    (m.dispatched c p).writes = .cpu c :: .proc p :: (m.scanned (List.finRange NPROC)).writes := rfl

theorem Machine.mem_scanned_writes {m : Machine} {w : Loc} (hw : w ∈ (m.scanned l).writes) :
    w.InTable ∨ w ∈ m.writes := by
  rw [scanned_writes] at hw
  rcases List.mem_append.1 hw with hw | hw
  · obtain ⟨i, _, rfl⟩ := List.mem_map.1 (List.mem_reverse.1 hw)
    exact .inl i.isLt
  · exact .inr hw

theorem Machine.mem_dispatched_writes {m : Machine} {w : Loc} (hw : w ∈ (m.dispatched c p).writes) :
    w.InTable ∨ w ∈ m.writes := by
  rw [dispatched_writes, List.mem_cons, List.mem_cons] at hw
  rcases hw with rfl | rfl | hw
  · exact .inl trivial
  · exact .inl p.isLt
  · exact mem_scanned_writes hw

/-- What an event adds to the writes and the switches. -/
structure Adds (L : Layout) (ev : Event) (m m' : Machine) : Prop where
  keep : ∀ w ∈ m.writes, w ∈ m'.writes
  writes : ¬ ev.Returns L m → ∀ w ∈ m'.writes, w.InTable ∨ w ∈ m.writes
  switches : ¬ ev.Returns L m → ∀ i, m'.switches i = m.switches i ∨ m'.switches i = 0
  beyond : ev.Returns L m → .proc NPROC ∈ m'.writes

theorem Adds.of_none {m m' : Machine} (hr : ¬ ev.Returns L m) (hk : ∀ w ∈ m.writes, w ∈ m'.writes)
    (hw : ∀ w ∈ m'.writes, w.InTable ∨ w ∈ m.writes) (hs : m'.switches = m.switches) :
    Adds L ev m m' :=
  ⟨hk, fun _ => hw, fun _ i => .inl (by rw [hs]), fun h => (hr h).elim⟩

theorem Adds.refl {m : Machine} (hr : ¬ ev.Returns L m) : Adds L ev m m :=
  .of_none hr (fun _ hw => hw) (fun _ hw => .inr hw) rfl

theorem adds_round {m : Machine} (c : Nat) :
    Wp (Machine.event L (.round c)) AnyError (fun _ m' => Adds L (.round c) m m') m := by
  have hr : ¬ (Event.round c).Returns L m := Event.not_returns (by simp)
  have hkeep (w : Loc) (hw : w ∈ m.writes) : w ∈ (m.scanned (List.finRange NPROC)).writes := by
    rw [Machine.scanned_writes]
    exact List.mem_append_right _ hw
  refine wp_round (fun _ => .refl hr) (fun _ _ => ?_) fun p _ _ _ => ?_
  · exact .of_none hr hkeep (fun _ hw => Machine.mem_scanned_writes hw) rfl
  · refine .of_none hr (fun w hw => ?_) (fun _ hw => Machine.mem_dispatched_writes hw) rfl
    rw [Machine.dispatched_writes]
    simp [hkeep w hw]

theorem adds_user {m : Machine} (c : Nat) (op : Op) :
    Wp (Machine.event L (.user c op)) AnyError (fun _ m' => Adds L (.user c op) m m') m := by
  have hskip (h : ∀ p, m.cpu c = some p → op.slot ≠ some p) : Adds L (.user c op) m m := by
    refine .refl ?_
    rintro ⟨_, _, p, _, _, he, hc, ho, _⟩
    cases he
    exact h p hc ho
  rw [Machine.event, wp_bind, wp_get]
  cases hcpu : m.cpu c with
  | none => exact wp_pure.2 (hskip (by simp [hcpu]))
  | some p =>
    refine .ite (fun hop => ?_) fun hop => wp_pure.2 (hskip fun p' hp' => by
      rw [hcpu] at hp'
      cases hp'
      exact hop)
    cases hs : step L op m.sys with
    | error e => simp [Wp, runOp, onSys, zoom, bind, StateT.bind, Except.bind, get, getThe,
        MonadStateOf.get, StateT.get, pure, Except.pure, hs, AnyError]
    | ok r =>
      have hzoom : onSys (step L op) m = .ok (r.1, { m with sys := r.2 }) := by
        simp only [onSys, zoom, hs]
      rw [runOp, wp_bind, wp_get]
      refine .bind_ok hzoom ?_
      rw [wp_bind, wp_modify, wp_bind, wp_get]
      refine .ite (fun hstop => ?_) fun hgo => wp_pure.2 ?_
      · have hret : (Event.user c op).Returns L m := ⟨c, op, p, r.1, r.2, rfl, hcpu, hop, hs, hstop⟩
        simp only [wp_bind, wp_modify, schedulerBack, incTotSche, lt_irrefl, dif_neg,
          not_false_eq_true, putCpu]
        refine ⟨fun w hw => ?_, fun h => (h hret).elim, fun h => (h hret).elim, fun _ => ?_⟩
        · simp [hw]
        · simp
      · have hret : ¬ (Event.user c op).Returns L m := by
          rintro ⟨c', op', p', out, t', he, hc, _, hs', hstop⟩
          cases he
          rw [hcpu] at hc
          cases hc
          rw [hs] at hs'
          cases hs'
          exact hgo hstop
        refine ⟨fun _ hw => hw, fun _ _ hw => .inr hw, fun _ i => ?_, fun h => (hret h).elim⟩
        show recount _ _ _ i = _ ∨ recount _ _ _ i = _
        rw [recount]
        split
        · exact .inl rfl
        · exact .inr rfl

theorem Machine.event_adds {m : Machine} (L : Layout) (ev : Event) :
    Wp (Machine.event L ev) AnyError (fun _ m' => Adds L ev m m') m := by
  cases ev with
  | round c => exact adds_round c
  | user c op => exact adds_user c op
  | tick =>
    rw [Machine.event, wp_bind, wp_get, onSys, wp_zoom]
    exact .of_forall fun _ _ => .of_none (Event.not_returns (by simp)) (fun _ hw => hw) (fun _ hw => .inr hw) rfl

/-- As long as no process has switched back. -/
structure NoReturn (m : Machine) : Prop where
  writes : ∀ w ∈ m.writes, w.InTable
  tot_sche : ∀ i, (m.sys.proc i).tot_sche = 0
  switches : ∀ i, m.switches i = 0

theorem NoReturn.counted {m : Machine} (h : NoReturn m) : m.Counted := by
  refine ⟨h.writes, fun i _ => ?_⟩
  rw [h.tot_sche, h.switches]
  rfl

theorem NoReturn.event {m : Machine} (h : NoReturn m) (hr : ¬ ev.Returns L m) :
    Wp (Machine.event L ev) AnyError (fun _ m' => NoReturn m') m := by
  have htot := stable_tot_sche.event (L := L) h.tot_sche ev fun _ _ _ i => by
    rw [Proc.refresh_tot_sche, h.tot_sche]
  refine (htot.and (Machine.event_adds L ev)).mono ?_
  rintro _ m' ⟨ht, ha⟩
  refine ⟨fun w hw => ?_, ht, fun i => ?_⟩
  · rcases ha.writes hr w hw with hin | hold
    · exact hin
    · exact h.writes w hold
  · rcases ha.switches hr i with he | he
    · exact he.trans (h.switches i)
    · exact he

/-- A run counts the switches, and writes nowhere else, exactly if no process that was switched to has
switched back. -/
theorem tot_sche_counts_iff (L : Layout) (ram : Nat → Page) (beyond : Nat → BitVec 32)
    (evs : List Event) {u : Unit} {m₀ m : Machine} {outs : List Unit}
    (hboot : onSys (boot L) (Machine.start ram beyond) = .ok (u, m₀))
    (hrun : runWith (Machine.event L) evs m₀ = .ok (outs, m)) :
    m.Counted ↔ Meets (Machine.event L) (fun m ev => ¬ ev.Returns L m) evs m₀ := by
  constructor
  · intro hc
    refine Meets.of_run (J := fun m => .proc NPROC ∈ m.writes) hrun (fun ev m hr => ?_)
      (fun ev m hJ => ?_) fun hJ => lt_irrefl NPROC (hc.1 (.proc NPROC) hJ)
    · exact (Machine.event_adds L ev).mono fun _ _ ha => ha.beyond (not_not.1 hr)
    · exact (Machine.event_adds L ev).mono fun _ _ ha => ha.keep _ hJ
  · intro hmeets
    have hstart : Wp (onSys (boot L)) AnyError (fun _ m => NoReturn m) (Machine.start ram beyond) := by
      refine wp_zoom.2 ((stable_tot_sche.boot L ram).mono fun _ t ht => ⟨?_, ht, fun _ => rfl⟩)
      exact fun _ hw => (List.not_mem_nil hw).elim
    have hrest := hmeets.run (E := AnyError) (I := NoReturn) (hstart.of_eq_ok hboot)
      fun ev _ m h hr => h.event hr
    exact (hrest.of_eq_ok hrun).counted

/-- A kernel that has booted switches to the first process. -/
theorem boot_dispatch (L : Layout) (ram : Nat → Page) (beyond : Nat → BitVec 32) :
    ∃ m₀ p g r x, onSys (boot L) (Machine.start ram beyond) = .ok ((), m₀) ∧
      Booted L m₀.sys p .RUNNABLE g r x ∧ BootTable m₀.sys ∧ (∀ c, m₀.cpu c = none) ∧
      Machine.event L (.round 0) m₀ = .ok ((), m₀.dispatched 0 p) := by
  obtain ⟨t, p, g, r, x, ht, hb, hboot⟩ := onSys_boot L ram beyond
  have htab := (boot_table L ram).of_eq_ok ht
  generalize hm : ({ Machine.start ram beyond with sys := t } : Machine) = m₀ at hboot
  obtain rfl : m₀.sys = t := by rw [← hm]
  have hcpu (c : Nat) : m₀.cpu c = none := by
    rw [← hm]
    rfl
  obtain ⟨p', hp', hs⟩ := scheduler_some hb.state 0
  have hrun := (best_spec hp').1
  rw [Machine.seen, Proc.refresh_state] at hrun
  obtain rfl : p' = p := by
    by_contra hne
    rw [hb.alone p' hne] at hrun
    cases hrun
  exact ⟨m₀, p', g, r, x, hboot, hb, htab, hcpu, (Machine.event_round (hcpu 0)).trans hs⟩

theorem boot_round (L : Layout) (ram : Nat → Page) (beyond : Nat → BitVec 32) :
    ∃ m₀ m p, onSys (boot L) (Machine.start ram beyond) = .ok ((), m₀) ∧
      Machine.event L (.round 0) m₀ = .ok ((), m) ∧ Inv L m.sys ∧ m.cpu 0 = some p ∧
      (m.sys.proc p).state = .RUNNING ∧ (m.sys.proc p).killed = false := by
  obtain ⟨m₀, p, g, r, x, hboot, hb, _, hcpu, hev⟩ := boot_dispatch L ram beyond
  refine ⟨m₀, m₀.dispatched 0 p, p, hboot, hev, (Machine.dispatched_quiet 0 hb.state).inv hb.toInv,
    ?_, ?_, ?_⟩
  · rw [Machine.dispatched_cpu, Function.update_self]
  · rw [Machine.dispatched_state, if_pos rfl]
  · rw [Machine.dispatched_proc, if_pos rfl]
    show (m₀.seen p).killed = false
    rw [Machine.seen, Proc.refresh_killed, hb.killed]

theorem tot_sche_counts_round :
    ∃ m₀ m, onSys (boot imageLayout) (Machine.start (fun _ _ => 0) fun _ => 0) = .ok ((), m₀) ∧
      runWith (Machine.event imageLayout) [.round 0] m₀ = .ok ([()], m) ∧ m.Counted := by
  obtain ⟨m₀, m, p, hboot, hev, _⟩ := boot_round imageLayout (fun _ _ => 0) fun _ => 0
  have hrun : runWith (Machine.event imageLayout) [.round 0] m₀ = .ok ([()], m) :=
    runWith_cons hev rfl
  refine ⟨m₀, m, hboot, hrun, (tot_sche_counts_iff _ _ _ _ hboot hrun).2 ?_⟩
  exact .of_forall (fun ev he m => Event.not_returns fun c op h => by simp [h] at he) m₀

/-- A timer interrupt of a process that is not to be killed. -/
theorem Inv.timer {t : Sys} {p : Slot} (h : Inv L t) (hp : (t.proc p).state = .RUNNING)
    (hk : (t.proc p).killed = false) (regs : Regs) :
    ∃ out t', PbsCow.step L (.trap p regs .timer) t = .ok (out, t') ∧
      t'.proc = (t.setProc p fun q => { q with state := .RUNNABLE }).proc := by
  refine Wp.exists_ok ?_
  rw [PbsCow.step, whenState, wp_bind, wp_get, if_pos hp, wp_bind, PbsCow.usertrap.eq_def]
  refine .bind (h.uservec (by rw [hp]; simp) regs) ?_
  rintro _ t₁ ⟨ht₁, _⟩
  dsimp only
  rw [PbsCow.exitIfKilled, wp_bind, wp_get]
  refine .ite_neg (by rw [ht₁.proc, hk]; simp) ?_
  simp only [wp_bind, wp_setProc, wp_pure]
  funext i
  by_cases hi : i = p
  · rw [hi, Sys.setProc_self, Sys.setProc_self, ht₁.proc]
  · rw [Sys.setProc_of_ne _ hi, Sys.setProc_of_ne _ hi, ht₁.proc]

/-- An operation that succeeds, on the machine. -/
theorem Machine.event_user {m : Machine} (hc : m.cpu c = some p) (ho : op.slot = some p)
    (hs : step L op m.sys = .ok (out, t')) :
    ∃ m', event L (.user c op) m = .ok ((), m') ∧ m'.sys = t' ∧
      m'.cpu = if (t'.proc p).state = .RUNNING then m.cpu else Function.update m.cpu c none := by
  have hev : Wp (event L (.user c op)) NoError (fun _ m' => m'.sys = t' ∧
      m'.cpu = if (t'.proc p).state = .RUNNING then m.cpu else Function.update m.cpu c none) m := by
    have hzoom : onSys (step L op) m = .ok (out, { m with sys := t' }) := by
      simp only [onSys, zoom, hs]
    rw [event, wp_bind, wp_get, hc]
    refine .ite_pos ho ?_
    rw [runOp, wp_bind, wp_get]
    refine .bind_ok hzoom ?_
    rw [wp_bind, wp_modify, wp_bind, wp_get]
    refine .ite (fun hstop => ?_) fun hgo => wp_pure.2 ⟨rfl, (if_pos (not_not.1 hgo)).symm⟩
    simp only [wp_bind, wp_modify, schedulerBack, incTotSche, lt_irrefl, dif_neg, not_false_eq_true,
      putCpu]
    exact ⟨trivial, (if_neg hstop).symm⟩
  obtain ⟨_, m', he, h⟩ := hev.exists_ok
  exact ⟨m', he, h⟩

theorem boot_round_timer (L : Layout) (ram : Nat → Page) (beyond : Nat → BitVec 32) :
    ∃ m₀ m p, onSys (boot L) (Machine.start ram beyond) = .ok ((), m₀) ∧
      runWith (Machine.event L) [.round 0, .user 0 (.trap p ⟨0, 0⟩ .timer)] m₀ = .ok ([(), ()], m) ∧
      .proc NPROC ∈ m.writes ∧ ¬ m.Counted := by
  obtain ⟨m₀, m₁, p, hboot, hev, hi, hcpu, hp, hk⟩ := boot_round L ram beyond
  obtain ⟨out, t', hs, ht'⟩ := hi.timer hp hk ⟨0, 0⟩
  have hret : (Event.user 0 (.trap p ⟨0, 0⟩ .timer)).Returns L m₁ :=
    ⟨0, _, p, out, t', rfl, hcpu, rfl, hs, by rw [ht', Sys.setProc_self]; simp⟩
  obtain ⟨m, hev', _⟩ := Machine.event_user hcpu rfl hs
  have hw := ((Machine.event_adds L _).of_eq_ok hev').beyond hret
  refine ⟨m₀, m, p, hboot, runWith_cons hev (runWith_cons hev' rfl), hw, fun hc => ?_⟩
  exact lt_irrefl NPROC (hc.1 (.proc NPROC) hw)

/-- The first process is switched to, and gives up the CPU at a timer interrupt. -/
theorem tot_sche_written_beyond :
    ∃ m₀ m p, onSys (boot imageLayout) (Machine.start (fun _ _ => 0) fun _ => 0) = .ok ((), m₀) ∧
      runWith (Machine.event imageLayout) [.round 0, .user 0 (.trap p ⟨0, 0⟩ .timer)] m₀ =
        .ok ([(), ()], m) ∧ .proc NPROC ∈ m.writes ∧ ¬ m.Counted :=
  boot_round_timer imageLayout _ _

end PbsCow

import PbsCow.KernelScheduler

namespace PbsCow
set_option autoImplicit true

variable {C : Type}

/-- A write that leaves alone what matters of its slot. -/
theorem KernelOk.quiet {s : Kmem C} {f : Kmem C → Kmem C} (hQ : Steady c me l Q) (ha : At c me l s)
    (hq : Q s) (hf : ∀ s, SlotStep i s (f s) ∧ SameSlot s (f s) i) (hq' : ∀ s, Q s → Q (f s))
    (hk : ∀ s, At c me l s → Q s → KernelOk c k s) : KernelOk c (.modify f k) s := by
  refine .modify hQ ha hq fun s hi ha hq => ?_
  obtain ⟨hstep, hsame⟩ := hf s
  exact ⟨hstep.quiet hsame hi, hk _ (ha.quiet hstep hsame) (hq' s hq)⟩

theorem refresh_state (i j : Slot) (s : Kmem C) :
    ((Smp.refresh i s).proc j).state = (s.proc j).state := by
  obtain ⟨hstep, hsame⟩ := refresh_same i s
  by_cases hj : j = i
  · exact hj ▸ hsame.state
  · rw [hstep.proc j hj]

variable [DecidableEq C]

/-- The scan drops the first of its two locks. -/
theorem mem_drop_right {p h : Slot} (hne : p ≠ h) (k : Lock) :
    k ∈ [Lock.proc p] ↔ k ∈ [Lock.proc p, Lock.proc h] ∧ k ≠ .proc h := by
  simp only [List.mem_cons, List.not_mem_nil, or_false]
  refine ⟨fun hk => ⟨.inl hk, ?_⟩, fun hk => hk.1.resolve_right hk.2⟩
  rw [hk]
  simpa using hne

/-- The end of a critical section on slot `i`. -/
theorem KernelOk.releaseSlot {s : Kmem C} (l' : List Lock) (hi : .proc i ∈ l)
    (hQ : Steady c me l Q) (ha : At c me l s) (hq : Q s) (hu : (s.proc i).state ≠ .USED)
    (hl : ∀ k, k ∈ l' ↔ k ∈ l ∧ k ≠ .proc i) (hk : ∀ s, At c me l' s → Q s → KernelOk c k s) :
    KernelOk c (Smp.release c (.proc i) k) s := by
  refine .release l' (.and hQ (.state hi fun st => st ≠ .USED)) ha ⟨hq, hu⟩ hl (fun s _ _ hs => ?_)
    fun s ha hs => hk s ha hs.1
  refine ⟨fun j hj => ?_, by simp, by simp⟩
  injection hj with hj
  exact hj ▸ hs.2

theorem KernelOk.scan {s : Kmem C} (ha : At c none [.proc h] s) (hr : (s.proc h).state = .RUNNABLE) :
    KernelOk c (Smp.scan c l h) s := by
  induction l generalizing h s with
  | nil => exact ⟨ha, hr⟩
  | cons p l ih =>
    have hQ : Steady c none [.proc h] fun s : Kmem C => (s.proc h).state = .RUNNABLE :=
      .state (by simp) fun st => st = .RUNNABLE
    have hQ₂ : Steady c none [.proc p, .proc h] fun s : Kmem C =>
        (s.proc h).state = .RUNNABLE := hQ.mono (by simp)
    have hp (P : ProcState → Prop) : Steady c none [.proc p, .proc h] fun s : Kmem C =>
        P (s.proc p).state := .state (by simp) P
    rw [Smp.scan]
    refine .quiet hQ ha hr (refresh_same p) (fun s h => (refresh_state ..).trans h) fun s ha hr => ?_
    refine .acquire hQ ha hr fun s hi hfree hr ha => ?_
    have hne : p ≠ h := by simpa using hfree.2
    have hkeep (s : Kmem C) (ha : At c none [.proc p, .proc h] s) (hr : (s.proc h).state = .RUNNABLE)
        (hu : (s.proc p).state ≠ .USED) :
        KernelOk c (Smp.release c (.proc p) (Smp.scan c l h)) s :=
      .releaseSlot [.proc h] (by simp) hQ₂ ha hr hu (mem_drop_head (by simpa using hne)) fun s ha hr => ih ha hr
    have htake (s : Kmem C) (ha : At c none [.proc p, .proc h] s)
        (hr : (s.proc p).state = .RUNNABLE) (hu : (s.proc h).state = .RUNNABLE) :
        KernelOk c (Smp.release c (.proc h) (Smp.scan c l p)) s :=
      .releaseSlot [.proc p] (by simp) (hp (· = .RUNNABLE)) ha hr (by rw [hu]; simp)
        (mem_drop_right hne) fun s ha hr => ih ha hr
    refine .read (.and hQ₂ (hp (· ≠ .USED))) ha ⟨hr, hi.not_used hfree.1⟩ fun s _ ha hs => ?_
    split
    case isFalse => exact hkeep s ha hs.1 hs.2
    case isTrue hrun =>
      have hQ₃ := hQ₂.and (hp (· = .RUNNABLE))
      have hkeep' (s : Kmem C) (ha : At c none [.proc p, .proc h] s)
          (hr : (s.proc h).state = .RUNNABLE) (hu : (s.proc p).state = .RUNNABLE) :=
        hkeep s ha hr (by rw [hu]; simp)
      refine .read hQ₃ ha ⟨hs.1, hrun⟩ fun s _ ha hs => ?_
      split
      case isTrue => exact htake s ha hs.2 hs.1
      refine .read hQ₃ ha hs fun s _ ha hs => ?_
      split
      case isTrue => exact htake s ha hs.2 hs.1
      refine .read hQ₃ ha hs fun s _ ha hs => ?_
      split
      case isTrue => exact htake s ha hs.2 hs.1
      exact hkeep' s ha hs.1 hs.2

theorem KernelOk.scanFirst {s : Kmem C} (ha : At c none [] s) : KernelOk c (Smp.scanFirst c l) s := by
  cases l with
  | nil => exact ha
  | cons p l =>
    have hp (P : ProcState → Prop) : Steady c none [.proc p] fun s : Kmem C => P (s.proc p).state :=
      .state (by simp) P
    refine .quiet (.true c none []) ha trivial (refresh_same p) (fun _ h => h) fun s ha _ => ?_
    refine .acquire (.true c none []) ha trivial fun s hi hfree _ ha => ?_
    refine .read (hp (· ≠ .USED)) ha (hi.not_used hfree.1) fun s _ ha hu => ?_
    split
    case isFalse =>
      exact .releaseSlot [] (by simp) (.true c none _) ha trivial hu (by simp) fun s ha _ => ha
    case isTrue hr =>
      refine .modify (hp (· = .RUNNABLE)) ha hr fun s hi ha hr => ⟨?_, .scan (s := { s with
        saw := Function.update s.saw c true }) ⟨ha.stack, ha.cpu, ha.run, ha.holds⟩ hr⟩
      exact hi.quiet ⟨⟨rfl, rfl, rfl, rfl, rfl, rfl, rfl, rfl⟩, rfl, rfl, rfl, fun _ _ => rfl,
        fun _ _ => rfl, fun _ _ => rfl, fun _ _ => rfl⟩
        ⟨rfl, rfl, rfl, fun _ => ⟨rfl, rfl, rfl, rfl, rfl⟩, rfl, rfl, rfl⟩

/-- The process that a CPU has chosen goes on where it has left off. -/
theorem KernelOk.switch {s : Kmem C} (he : Enters c h s) :
    KernelOk c (.act (fun s => some { s with
      stack := Function.update s.stack c (some h),
      saved := Function.update s.saved c (.back h) }) fun s => .goto (s.context h)) s := by
  refine .act (Enters.stable c h) he fun s s' hi he hf => ?_
  injection hf with hf
  subst hf
  refine ⟨⟨fun i => ?_, fun c' q hq => ?_, hi.one, hi.uids, hi.init, hi.exits, hi.exit_once, hi.reaps,
    hi.reap_once, hi.noMiss, hi.noSleeper, hi.cond⟩, ?_, ?_⟩
  · have hf := hi.fine i
    exact ⟨hf.running, hf.cpu, hf.asleep, hf.sleeping, hf.unused, hf.used, hf.entry, hf.parent,
      hf.zombie, hf.exited, hf.reaped, hf.uid⟩
  · dsimp only at hq ⊢
    by_cases hc : c' = c
    · rw [hc, Function.update_self] at hq
      injection hq with hq
      rw [hc, Function.update_self, ← hq]
      exact ⟨he.cpu, rfl⟩
    · rw [Function.update_of_ne hc] at hq
      rw [Function.update_of_ne hc]
      exact hi.stack c' q hq
  · exact ⟨fun c' hc => ⟨rfl, Function.update_of_ne hc _ _⟩, fun _ _ _ => Iff.rfl,
      fun _ _ => ⟨rfl, rfl⟩, fun _ _ h => ⟨h, rfl⟩, fun _ _ h => h, fun _ _ => .inl rfl,
      fun _ _ _ h => h, fun _ _ => ⟨rfl, rfl⟩⟩
  · have hentry := (hi.fine h).entry
    have hat : At c (some h) [.proc h] { s with
        stack := Function.update s.stack c (some h),
        saved := Function.update s.saved c (.back h) } := by
      refine ⟨by simp, he.cpu, fun p hp => ?_, he.holds⟩
      injection hp with hp
      exact hp ▸ ⟨he.state, he.asleep⟩
    show kernelContract.pre c (s.context h) _
    generalize s.context h = l at hentry ⊢
    cases l with
    | scan l => exact hentry.elim
    | chosen h => exact hentry.elim
    | back h => exact hentry.elim
    | point q r => exact hentry.elim
    | forkret q => exact (show q = h from hentry) ▸ hat
    | yielded q r => exact (show q = h from hentry) ▸ hat
    | slept q r => exact (show q = h from hentry) ▸ hat
    | dead q => exact (show q = h from hentry) ▸ hat

theorem KernelOk.chosen {boot : C} {s : Kmem C} (ha : At c none [.proc h] s)
    (hr : (s.proc h).state = .RUNNABLE) :
    KernelOk c (Smp.body boot other c (.chosen (some h))) s := by
  have hQ : Steady c none [.proc h] fun s : Kmem C => (s.proc h).state = .RUNNABLE :=
    .state (by simp) fun st => st = .RUNNABLE
  rw [Smp.body]
  refine .read hQ ha hr fun s _ ha hr => ?_
  rw [if_pos hr]
  refine .modify hQ ha hr fun s hi ha hr => ?_
  generalize hs' : Kmem.setProc { s with cpu := Function.update s.cpu c (some h) } h
    (fun q => { q with state := .RUNNING }) = s'
  have hsame (j : Slot) (hj : j ≠ h) : SameSlot s s' j := by
    have hp := Kmem.setProc_of_ne { s with cpu := Function.update s.cpu c (some h) } hj fun q =>
      { q with state := .RUNNING }
    rw [hs'] at hp
    subst hs'
    exact ⟨by rw [hp], by rw [hp], by rw [hp], fun _ => by simp [hp], rfl, rfl, rfl⟩
  have hlogs : SameLogs s s' := by
    subst hs'
    exact ⟨rfl, rfl, rfl, rfl, rfl, rfl, rfl, rfl⟩
  subst hs'
  obtain ⟨hstep, he⟩ := dispatch_step hi ha hr hlogs (Kmem.setProc_self _ h _) hsame
    (by simp) (fun c' hc => by simp [hc]) rfl rfl rfl rfl rfl
  exact ⟨hstep, .switch he⟩

theorem KernelOk.back {boot : C} {s : Kmem C} (hv : Leaves c h none [.proc h] s) :
    KernelOk c (Smp.body boot other c (.back h)) s := by
  refine Contract.Ok.modify (Leaves.stable c h none [.proc h]) hv fun s hi hv => ?_
  have hlogs : SameLogs s { s with
      cpu := Function.update s.cpu c none, saw := Function.update s.saw c false } :=
    ⟨rfl, rfl, rfl, rfl, rfl, rfl, rfl, rfl⟩
  obtain ⟨⟨hi', hg⟩, ha, hu⟩ := back_step hi hv hlogs
    (fun j => ⟨rfl, rfl, rfl, fun _ => ⟨rfl, rfl, rfl, rfl, rfl⟩, rfl, rfl, rfl⟩)
    (Function.update_self c none s.cpu) (fun c' hc => Function.update_of_ne hc _ _) rfl rfl
  exact ⟨hi', hg, KernelOk.releaseSlot [] (by simp) (.true c none _) ha trivial hu (by simp)
    fun s ha _ => ha⟩

/-- A `wakeup` under the locks in `l`; `Q` tells what is known when the slots in its list are left. -/
theorem KernelOk.wakeup {s : Kmem C} {Q : List Slot → Kmem C → Prop}
    (hQ : ∀ r, Steady c me l (Q r)) (hl : ∀ i, .proc i ∉ l)
    (hw : ∀ i r s s', Woken chan i s s' → Q (i :: r) s → Q r s') (ha : At c me l s)
    (hq : Q (Smp.slots.filter fun i => some i ≠ me) s)
    (hk : ∀ s, At c me l s → Q [] s → KernelOk c k s) : KernelOk c (Smp.wakeup c me chan k) s := by
  refine .visit (R := fun i => some i ≠ me) hQ hl (fun i hi => ?_) (fun i r s hne hi ha hu hq => ?_) ha
    hq hk
  · simpa using (List.mem_filter.1 hi).2
  · have hlock := (ha.holds (.proc i)).2 (by simp)
    have hcpu : s.cpu c ≠ some i := by
      rw [ha.cpu]
      exact fun he => hne he.symm
    obtain ⟨hstep, hwoken⟩ := wake_step hi hlock hcpu chan
    refine ⟨hstep, ha.slotStep hwoken.step fun he => (hne he.symm).elim, fun hu' => ?_,
      hw i r s _ hwoken hq⟩
    rw [Smp.wake] at hu'
    split at hu'
    · rw [Kmem.setProc_self] at hu'
      cases hu'
    · exact hu hu'

theorem KernelOk.clockintr {s : Kmem C} (ha : At c me [] s)
    (hk : ∀ s, At c me [] s → KernelOk c k s) : KernelOk c (Smp.clockintr c me k) s := by
  have hQ (l : List Lock) (r : List Slot) : Steady c me l fun _ : Kmem C => True := .true c me l
  have hl (i : Slot) : Lock.proc i ∉ [Lock.ticks] := by simp
  have hvisit {f : Slot → Kmem C → Kmem C} {k : Code C} {s : Kmem C}
      (hf : ∀ i s, SlotStep i s (f i s) ∧ SameSlot s (f i s) i) (ha : At c me [.ticks] s)
      (hk : ∀ s, At c me [.ticks] s → KernelOk c k s) :
      KernelOk c (Smp.visit c f k Smp.slots) s := by
    refine .visit (R := fun _ => True) (hQ _) hl (fun _ _ => trivial)
      (fun i r s _ hi ha hu _ => ?_) ha trivial fun s ha _ => hk s ha
    obtain ⟨hstep, hsame⟩ := hf i s
    exact ⟨hstep.quiet hsame hi, ha.quiet hstep hsame, by rw [hsame.state]; exact hu, trivial⟩
  refine .acquire (.true c me []) ha trivial fun s _ _ _ ha => ?_
  refine .quiet (i := Smp.first) (.true c me _) ha trivial (fun s => ⟨⟨⟨rfl, rfl, rfl, rfl, rfl, rfl, rfl,
    rfl⟩, rfl, rfl, rfl, fun _ _ => rfl, fun _ _ => rfl, fun _ _ => rfl, fun _ _ => rfl⟩,
    rfl, rfl, rfl, fun _ => ⟨rfl, rfl, rfl, rfl, rfl⟩, rfl, rfl, rfl⟩) (fun _ h => h) fun s ha _ => ?_
  refine hvisit charge_same ha fun s ha => hvisit countTick_same ha fun s ha => ?_
  refine .wakeup (hQ _) hl (fun _ _ _ _ _ _ => trivial) ha trivial fun s ha _ => ?_
  exact .release [] (.true c me _) ha trivial (by simp) (fun _ _ _ _ => ⟨by simp, by simp, by simp⟩)
    fun s ha _ => hk s ha

end PbsCow

import PbsCow.KernelCalls

namespace PbsCow
set_option autoImplicit true

variable {C : Type} [DecidableEq C]

theorem KernelOk.goOn {s : Kmem C} (ha : At c (some p) [] s) : KernelOk c (Smp.goOn c p q w) s := by
  cases q with
  | user =>
    cases w with
    | fault =>
      exact .quiet (.true c _ _) ha trivial (fun s => ⟨SlotStep.setProc s p _,
        .write rfl rfl rfl ⟨rfl, rfl, rfl, rfl, rfl⟩⟩) (fun _ h => h) fun s ha _ => ha
    | _ => exact ha
  | exit status => exact .exit ha
  | wait x addr => exact .wait ha
  | kill pid l => exact .kill ha
  | fork l => exact .fork ha
  | setPriority pid new_priority l do_yield => exact .setPriority ha
  | sleep n ticks0 => exact .sysSleep ha
  | test n => exact .test ha
  | make n before => exact .make ha

theorem KernelOk.point {boot : C} {s : Kmem C} (ha : At c (some p) [] s) :
    KernelOk c (Smp.process boot c (.point p q)) s := by
  refine .pick (.true c _ _) ha trivial fun s w ha _ => ?_
  split
  case h_1 =>
    split
    case isTrue => exact .clockintr ha fun s ha => .yield ha
    case isFalse => exact .yield ha
  case h_2 => exact .goOn ha

/-- A process that has been switched to releases its lock. -/
theorem KernelOk.entered {s : Kmem C} (ha : At c (some p) [.proc p] s) :
    KernelOk c (Smp.release c (.proc p) (.goto (.point p q))) s :=
  .releaseSlot [] (by simp) (.true c _ _) ha trivial (by rw [(ha.run p rfl).1]; simp) (by simp)
    fun _ ha _ => ha

theorem kernel_sound (boot : C) :
    kernelContract.Sound (fun _ _ _ => True) (Smp.body boot (Smp.process boot)) := by
  refine ⟨KernelGuar.refl, fun c l => ?_, fun _ _ _ _ _ => trivial, fun c l s _ ha _ => ?_⟩
  · cases l with
    | scan l => exact At.stable c none []
    | chosen h =>
      cases h with
      | none => exact At.stable c none []
      | some h =>
        have hQ : Steady c none [.proc h] fun s : Kmem C => (s.proc h).state = .RUNNABLE :=
          .state (by simp) fun st => st = .RUNNABLE
        exact hQ.stable _ fun _ h => h
    | back h => exact Leaves.stable c h none [.proc h]
    | point p q => exact At.stable c (some p) []
    | forkret p => exact At.stable c (some p) [.proc p]
    | yielded p q => exact At.stable c (some p) [.proc p]
    | slept p q => exact At.stable c (some p) [.proc p]
    | dead p => exact At.stable c (some p) [.proc p]
  · cases l with
    | scan l =>
      refine KernelOk.pick (.true c none []) ha trivial fun s w ha _ => ?_
      split
      case h_1 =>
        split
        case isTrue => exact KernelOk.clockintr ha fun _ ha => ha
        case isFalse => exact ha
      case h_2 => exact KernelOk.scanFirst ha
    | chosen h =>
      cases h with
      | none => exact ha
      | some h => exact KernelOk.chosen ha.1 ha.2
    | back h => exact KernelOk.back ha
    | point p q => exact KernelOk.point ha
    | forkret p => exact KernelOk.entered ha
    | yielded p q => exact KernelOk.entered ha
    | slept p q =>
      refine KernelOk.modify (.true c _ _) ha trivial fun s hi ha _ => ?_
      obtain ⟨hstep, ha'⟩ := chan_step hi ha
      exact ⟨hstep, .entered ha'⟩
    | dead p => exact trivial

theorem kernelInv_start (C : Type) : KernelInv (Kmem.start C) := by
  have hst (i : Slot) : ((Kmem.start C).proc i).state = .UNUSED ∨
      ((Kmem.start C).proc i).state = .RUNNABLE := by
    by_cases hi : i = Smp.first
    · right
      simp [Kmem.start, hi]
    · left
      simp [Kmem.start, hi, Proc.zero]
  have hne (i : Slot) (x : ProcState) (hx : x ≠ .UNUSED) (hx' : x ≠ .RUNNABLE) :
      ((Kmem.start C).proc i).state ≠ x := by
    intro he
    rcases hst i with h | h
    · exact hx (he.symm.trans h)
    · exact hx' (he.symm.trans h)
  have hpar (i : Slot) : ((Kmem.start C).proc i).parent = none := by
    by_cases hi : i = Smp.first
    · simp [Kmem.start, hi, Proc.zero]
    · simp [Kmem.start, hi, Proc.zero]
  refine ⟨fun i => ⟨fun h => (hne i .RUNNING (by simp) (by simp) h).elim, by simp [Kmem.start],
    by simp [Kmem.start], fun h => (hne i .SLEEPING (by simp) (by simp) h).elim, fun _ => hpar i,
    fun h => (hne i .USED (by simp) (by simp) h).elim, rfl, fun p hp => ?_,
    fun h => (hne i .ZOMBIE (by simp) (by simp) h).elim, by simp [Kmem.start], by simp [Kmem.start],
    i.2⟩, by simp [Kmem.start], by simp [Kmem.start], fun i j h => Fin.ext h, rfl, by simp [Kmem.start],
    by simp [Kmem.start], by simp [Kmem.start], by simp [Kmem.start], fun _ p i hp => ?_,
    by simp [Kmem.start], by simp [Kmem.start]⟩
  · rw [hpar i] at hp
    cases hp
  · cases hp

theorem kernel_kept (boot : C) (h : Reach (Smp.body boot (Smp.process boot)) (Smp.start C) x) :
    kernelContract.Kept (fun _ _ _ => True) x := by
  have hat (c : C) : At c none [] (Kmem.start C) := ⟨rfl, rfl, by simp, by simp [Kmem.start]⟩
  have hstart : kernelContract.Kept (fun _ _ _ => True) (Smp.start C) := ⟨kernelInv_start C, hat⟩
  exact hstart.reach (kernel_sound boot) h

/-- CPU `c` takes `n` steps without an interrupt or a call. -/
def Smp.steps (c : C) (n : Nat) : List (C × Input) := List.replicate n (c, .go)

/-- CPU 1 makes `init` run, and `init` forks. -/
def Smp.forks : List (Fin 8 × Input) := steps 1 329 ++ (1, .call .fork) :: steps 1 18

/-- No two CPUs run the same process, a running process is on one CPU, and a CPU neither takes a
process nor switches to it while another CPU is still on its kernel stack. -/
theorem one_cpu_per_process {boot : C} {x : Threads C (Kmem C) Input Label}
    (h : Reach (Smp.body boot (Smp.process boot)) (Smp.start C) x) :
    (∀ c c' p, x.mem.cpu c = some p → x.mem.cpu c' = some p → c = c') ∧
    (∀ p, (x.mem.proc p).state = .RUNNING → ∃! c, x.mem.cpu c = some p) ∧
    ∀ c w y p, x.step (Smp.body boot (Smp.process boot)) c w = some y →
      (x.mem.cpu c ≠ some p ∧ y.mem.cpu c = some p ∨
        x.mem.stack c ≠ some p ∧ y.mem.stack c = some p) →
      ∀ c', x.mem.stack c' ≠ some p := by
  have hk := kernel_kept boot h
  refine ⟨hk.inv.one, fun p hp => ?_, fun c w y p hy hd c' hc' => ?_⟩
  · obtain ⟨c, hc⟩ := (hk.inv.fine p).running hp
    exact ⟨c, hc, fun c' hc' => hk.inv.one c' c p hc' hc⟩
  · have hk' := kernel_kept boot (ReachIf.step h trivial hy)
    have hcpu := (hk.inv.stack c' p hc').1
    by_cases hcc : c' = c
    · subst hcc
      exact hd.elim (fun h => h.1 hcpu) fun h => h.1 hc'
    · have hg := hk.guar (kernel_sound boot) trivial hy
      have hy' : y.mem.cpu c = some p := hd.elim (fun h => h.2) fun h => (hk'.inv.stack c p h.2).1
      exact hcc (hk'.inv.one c' c p ((hg.cpu c' hcc).1.trans hcpu) hy')

theorem one_cpu_per_process_init : ∃ x : Threads (Fin 8) (Kmem (Fin 8)) Input Label,
    (x.mem.proc Smp.first).state = .RUNNING ∧ ∃! c, x.mem.cpu c = some Smp.first := by
  have hrun : ((Smp.start (Fin 8)).run (Smp.body 0 (Smp.process 0)) (Smp.steps 1 328)).map
      (fun x => (x.mem.proc Smp.first).state) = some .RUNNING := by decide +kernel
  obtain ⟨x, hx, hr⟩ := Option.map_eq_some_iff.1 hrun
  exact ⟨x, hr, (one_cpu_per_process (.of_run hx)).2.1 _ hr⟩

/-- A zombie is returned by at most one call of `wait` or `waitx`, to its parent, with its pid and exit
status; and nobody sleeps in `wait` with a zombie child while `wait_lock` is free. -/
theorem no_exit_lost {boot : C} {x : Threads C (Kmem C) Input Label}
    (h : Reach (Smp.body boot (Smp.process boot)) (Smp.start C) x) :
    (∀ i, (x.mem.proc i).state = .ZOMBIE → ∃ e ∈ x.mem.exits, e.Of x.mem i) ∧
    (x.mem.exits.map Exit.uid).Nodup ∧ (x.mem.reaps.map Reap.uid).Nodup ∧
    (∀ r ∈ x.mem.reaps, ∃ e ∈ x.mem.exits, e.uid = r.uid ∧
      r.parent = some r.waiter ∧ (r.waiter = r.forker ∨ r.waiter = x.mem.initproc) ∧
      r.pid = e.pid ∧ ∀ v, r.xstate = some v → v = e.xstate) ∧
    (x.mem.lock .wait = none → ∀ p i, (x.mem.proc p).state = .SLEEPING →
      (x.mem.proc p).chan = .proc (some p) → (x.mem.proc i).parent = some p →
      (x.mem.proc i).state ≠ .ZOMBIE) := by
  have hi := (kernel_kept boot h).inv
  refine ⟨fun i => (hi.fine i).zombie, hi.exit_once, hi.reap_once, fun r hr => ?_,
    fun hw p i hs hch hpar hz => ?_⟩
  · obtain ⟨e, he, ho⟩ := hi.reaps r hr
    exact ⟨e, he, ho.uid, ho.parent, ho.waiter, ho.pid, ho.xstate⟩
  · have ha := (hi.fine p).sleeping hs
    rw [hch] at ha
    exact hi.noMiss hw p i ha hz hpar

/-- The child runs on CPU 2 and exits with status 7, and `init` waits for it. -/
theorem no_exit_lost_child : ∃ x : Threads (Fin 8) (Kmem (Fin 8)) Input Label,
    x.mem.reaps.map (fun r => (r.pid, r.xstate)) = [(2, some 7)] ∧
    (x.mem.reaps.map Reap.uid).Nodup := by
  let steps := Smp.forks ++ Smp.steps 2 331 ++ (2, .call (.exit 7)) :: Smp.steps 2 330 ++
    Smp.steps 1 1 ++ (1, .call (.wait false 1)) :: Smp.steps 1 13
  have hrun : ((Smp.start (Fin 8)).run (Smp.body 0 (Smp.process 0)) steps).map
      (fun x => x.mem.reaps.map (fun r => (r.pid, r.xstate))) = some [(2, some 7)] := by
    decide +kernel
  obtain ⟨x, hx, hr⟩ := Option.map_eq_some_iff.1 hrun
  exact ⟨x, hr, (no_exit_lost (.of_run hx)).2.2.1⟩

/-- Nobody sleeps on a condition that has been true since a completed `wakeup`, while its lock is
free. -/
theorem no_wakeup_lost {boot : C} {x : Threads C (Kmem C) Input Label}
    (h : Reach (Smp.body boot (Smp.process boot)) (Smp.start C) x) :
    (∀ n, x.mem.woken n = true → x.mem.cond n = true) ∧
    ∀ n, x.mem.lock (.obj n) = none → x.mem.woken n = true →
      ∀ p, (x.mem.proc p).state = .SLEEPING → (x.mem.proc p).chan ≠ .other n := by
  have hi := (kernel_kept boot h).inv
  refine ⟨hi.cond, fun n hl hw p hs hch => ?_⟩
  have ha := (hi.fine p).sleeping hs
  rw [hch] at ha
  exact hi.noSleeper n hl hw p ha

/-- The child sleeps on CPU 2 until `init` makes the condition true. -/
theorem no_wakeup_lost_child : ∃ x : Threads (Fin 8) (Kmem (Fin 8)) Input Label,
    (x.mem.lock (.obj 5) = none ∧ x.mem.woken 5 = true) ∧
    ∀ p, (x.mem.proc p).state = .SLEEPING → (x.mem.proc p).chan ≠ .other 5 := by
  let steps := Smp.forks ++ Smp.steps 2 331 ++ (2, .call (.test 5)) :: Smp.steps 2 13 ++
    Smp.steps 1 1 ++ (1, .call (.make 5 true)) :: Smp.steps 1 259
  have hrun : ((Smp.start (Fin 8)).run (Smp.body 0 (Smp.process 0)) steps).map
      (fun x => (x.mem.lock (.obj 5), x.mem.woken 5)) = some (none, true) := by
    decide +kernel
  obtain ⟨x, hx, hr⟩ := Option.map_eq_some_iff.1 hrun
  have hl : x.mem.lock (.obj 5) = none ∧ x.mem.woken 5 = true :=
    ⟨congrArg Prod.fst hr, congrArg Prod.snd hr⟩
  exact ⟨x, hl, (no_wakeup_lost (.of_run hx)).2 5 hl.1 hl.2⟩

end PbsCow

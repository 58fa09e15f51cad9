import PbsCow.KernelWait

namespace PbsCow
set_option autoImplicit true

variable {C : Type}

/-- Only the processes in `R` may sleep on the object `n`. -/
def Kmem.SleepOnly (n : Nat) (R : Slot → Prop) (s : Kmem C) : Prop :=
  ∀ p, s.asleep p = some (.other n) → R p

/-- A condition that a completed `wakeup` has announced has no sleeper. -/
def Kmem.Announced (n : Nat) (s : Kmem C) : Prop := s.woken n = true → s.NoSleeper n

theorem Steady.sleepOnly (ho : .obj n ∈ l) (R : Slot → Prop) :
    Steady (C := C) c me l (Kmem.SleepOnly n R) := by
  refine ⟨fun l' hl s s' hs hr => ⟨At.stable c me l' s s' hs.1 hr, fun p hp => ?_⟩, fun _ _ _ h => h⟩
  obtain ⟨_, _, c', hc, hg⟩ := hr
  exact hs.2 p (hg.asleep p (.other n) (Kmem.not_held ((hs.1.holds _).2 (hl ho)) hc) hp)

theorem Steady.announced (ho : .obj n ∈ l) : Steady (C := C) c me l (Kmem.Announced n) := by
  refine ⟨fun l' hl s s' hs hr => ⟨At.stable c me l' s s' hs.1 hr, fun hw => ?_⟩, fun _ _ _ h => h⟩
  obtain ⟨_, _, c', hc, hg⟩ := hr
  have hlock := Kmem.not_held ((hs.1.holds _).2 (hl ho)) hc
  rw [(hg.obj n hlock).1] at hw
  exact hg.noSleeper hlock (hs.2 hw)

/-- The holder of the lock of an object can rely on its condition. -/
theorem Steady.cond (ho : .obj n ∈ l) (P : Bool → Bool → Prop) :
    Steady (C := C) c me l fun s => P (s.cond n) (s.woken n) := by
  refine ⟨fun l' hl s s' hs hr => ⟨At.stable c me l' s s' hs.1 hr, ?_⟩, fun _ _ _ h => h⟩
  obtain ⟨_, _, c', hc, hg⟩ := hr
  obtain ⟨hw, hcond⟩ := hg.obj n (Kmem.not_held ((hs.1.holds _).2 (hl ho)) hc)
  rw [hw, hcond]
  exact hs.2

/-- A write to a condition under its lock. -/
theorem cond_step {s s' : Kmem C} (hi : KernelInv s) (hl : s.lock (.obj n) = some c)
    (hs' : s' = { s with cond := Function.update s.cond n a, woken := Function.update s.woken n b })
    (hab : b = true → a = true) : KernelInv s' ∧ KernelGuar c s s' := by
  subst hs'
  have hne (m : Nat) (hm : s.lock (.obj m) ≠ some c) : m ≠ n := by
    rintro rfl
    exact hm hl
  refine ⟨⟨fun i => ?_, hi.stack, hi.one, hi.uids, hi.init, hi.exits, hi.exit_once, hi.reaps,
    hi.reap_once, hi.noMiss, fun m h hw => ?_, fun m hw => ?_⟩, fun _ _ => ⟨rfl, rfl⟩,
    fun _ _ _ => Iff.rfl, fun _ _ => ⟨rfl, rfl⟩, fun _ _ h => ⟨h, rfl⟩, fun _ _ h => h,
    fun _ _ => .inl rfl, fun _ _ _ h => h, fun m hm => ?_⟩
  · have hf := hi.fine i
    exact ⟨hf.running, hf.cpu, hf.asleep, hf.sleeping, hf.unused, hf.used, hf.entry, hf.parent,
      hf.zombie, hf.exited, hf.reaped, hf.uid⟩
  · dsimp only at hw
    rw [Function.update_of_ne (hne m (s.free_ne h))] at hw
    exact hi.noSleeper m h hw
  · dsimp only at hw ⊢
    by_cases hm : m = n
    · subst hm
      rw [Function.update_self] at hw ⊢
      exact hab hw
    · rw [Function.update_of_ne hm] at hw ⊢
      exact hi.cond m hw
  · exact ⟨Function.update_of_ne (hne m hm) _ _, Function.update_of_ne (hne m hm) _ _⟩

/-- A process that has been asleep clears its channel. -/
theorem chan_step {s : Kmem C} (hi : KernelInv s) (ha : At c (some p) [.proc p] s) :
    (KernelInv (s.setProc p fun q => { q with chan := .none }) ∧
      KernelGuar c s (s.setProc p fun q => { q with chan := .none })) ∧
    At c (some p) [.proc p] (s.setProc p fun q => { q with chan := .none }) := by
  have hself := s.setProc_self p fun q => { q with chan := .none }
  have hstep := SlotStep.setProc s p fun q => { q with chan := .none }
  obtain ⟨hr, hn⟩ := ha.run p rfl
  have hg : KernelGuar c s (s.setProc p fun q => { q with chan := .none }) :=
    hstep.guar ((ha.holds _).2 (by simp)) (fun hc => (hc ha.cpu).elim) (fun hz => by rwa [hself] at hz)
      (.inl (by rw [hself])) fun _ h => h
  have hf := hi.fine p
  refine ⟨⟨hstep.inv hi hg ⟨?_, ?_, fun chan hch => ?_, fun hs => ?_, ?_, ?_, hf.entry, ?_, fun hz => ?_,
    ?_, ?_, hf.uid⟩, hg⟩, ha.slotStep hstep fun _ => ?_⟩
  · rw [hself]
    exact hf.running
  · rw [hself]
    exact hf.cpu
  · rw [Kmem.setProc_asleep, hn] at hch
    cases hch
  · rw [hself] at hs
    exact absurd (hr.symm.trans hs) (by simp)
  · rw [hself]
    exact hf.unused
  · rw [hself]
    exact hf.used
  · rw [hself]
    exact hf.parent
  · rw [hself] at hz
    exact absurd (hr.symm.trans hz) (by simp)
  · rw [hself]
    exact hf.exited
  · rw [hself]
    exact hf.reaped
  · rw [hself]
    exact ⟨hr, hn⟩

theorem setKilled_at {s : Kmem C} (ha : At c (some p) l s) (hu : (s.proc i).state ≠ .USED) :
    At c (some p) l (Smp.setKilled i s) ∧ ((Smp.setKilled i s).proc i).state ≠ .USED := by
  rw [Smp.setKilled]
  split
  case isTrue hs =>
    have hne : p ≠ i := by
      rintro rfl
      rw [(ha.run p rfl).1] at hs
      cases hs
    refine ⟨⟨ha.stack, ha.cpu, fun q hq => ?_, ha.holds⟩, by simp⟩
    injection hq with hq
    subst hq
    rw [Kmem.setProc_of_ne _ hne, Kmem.setProc_asleep]
    simpa [hne] using ha.run p rfl
  case isFalse =>
    refine ⟨ha.slotStep (SlotStep.setProc s i _) fun he => ?_, by simpa using hu⟩
    simpa using ha.run i he

variable [DecidableEq C]

theorem KernelOk.kill {s : Kmem C} (ha : At c (some p) [] s) : KernelOk c (Smp.kill c p pid l) s := by
  cases l with
  | nil => exact ha
  | cons i l =>
    have hu : Steady c (some p) [.proc i] fun s : Kmem C => (s.proc i).state ≠ .USED :=
      .state (by simp) fun st => st ≠ .USED
    refine .acquire (.true c _ []) ha trivial fun s hi hfree _ ha => ?_
    refine .read hu ha (hi.not_used hfree.1) fun s _ ha hs => ?_
    split
    case isTrue =>
      refine .modify hu ha hs fun s hi ha hs => ⟨setKilled_step hi ((ha.holds _).2 (by simp)), ?_⟩
      obtain ⟨ha', hs'⟩ := setKilled_at ha hs
      exact .releaseSlot [] (by simp) (.true c _ _) ha' trivial hs' (by simp) fun s ha _ => ha
    case isFalse =>
      exact .releaseSlot [] (by simp) (.true c _ _) ha trivial hs (by simp) fun s ha _ => ha

theorem KernelOk.setPriority {s : Kmem C} (ha : At c (some p) [] s) :
    KernelOk c (Smp.setPriority c p pid new_priority l do_yield) s := by
  cases l with
  | nil =>
    rw [Smp.setPriority]
    split
    case isTrue => exact .yield ha
    case isFalse => exact ha
  | cons i l =>
    have hu : Steady c (some p) [.proc i] fun s : Kmem C => (s.proc i).state ≠ .USED :=
      .state (by simp) fun st => st ≠ .USED
    refine .acquire (.true c _ []) ha trivial fun s hi hfree _ ha => ?_
    refine .read hu ha (hi.not_used hfree.1) fun s _ ha hs => ?_
    split
    case isTrue =>
      refine .quiet hu ha hs (fun s => ⟨SlotStep.setProc s i _,
        .write rfl rfl rfl ⟨rfl, rfl, rfl, rfl, rfl⟩⟩) (fun s hs => by simpa using hs) fun s ha hs => ?_
      exact .releaseSlot [] (by simp) (.true c _ _) ha trivial hs (by simp) fun s ha _ => ha
    case isFalse =>
      exact .releaseSlot [] (by simp) (.true c _ _) ha trivial hs (by simp) fun s ha _ => ha

theorem KernelOk.sysSleep {s : Kmem C} (ha : At c (some p) [] s) :
    KernelOk c (Smp.sysSleep c p n ticks0) s := by
  have hover (s : Kmem C) (ha : At c (some p) [.ticks] s) :
      KernelOk c (Smp.release c .ticks (.goto (.point p .user))) s :=
    .release [] (.true c _ _) ha trivial (by simp) (fun _ _ _ _ => ⟨by simp, by simp, by simp⟩)
      fun s ha _ => ha
  refine .acquire (.true c _ []) ha trivial fun s hi hfree _ ha => ?_
  refine .read (.true c _ _) ha trivial fun s _ ha _ => ?_
  dsimp only
  split
  case isFalse => exact hover s ha
  case isTrue =>
    refine .killed (by simp) (.true c _ _) ha trivial fun s b ha _ => ?_
    split
    case isTrue => exact hover s ha
    case isFalse =>
      exact .sleep rfl (by simp) (.true c _ _) ha trivial fun s _ _ => ⟨by simp, by simp⟩

/-- The end of a critical section on an object. -/
theorem KernelOk.releaseObj {s : Kmem C} (ha : At c (some p) [.obj n] s) (hn : s.Announced n) :
    KernelOk c (Smp.release c (.obj n) (.goto (.point p .user))) s := by
  refine .release [] (.announced (by simp)) ha hn (by simp) (fun s _ _ hn => ?_) fun s ha _ => ha
  refine ⟨by simp, by simp, fun m hm hw => ?_⟩
  injection hm with hm
  subst hm
  exact hn hw

/-- A process finds its condition false only while no `wakeup` for it has been completed. -/
theorem KernelOk.test {s : Kmem C} (ha : At c (some p) [] s) : KernelOk c (Smp.test c p n) s := by
  have hA : Steady c (some p) [.obj n] (Kmem.Announced (C := C) n) := .announced (by simp)
  refine .acquire (.true c _ []) ha trivial fun s hi hfree _ ha => ?_
  refine .read hA ha (hi.noSleeper n hfree.1) fun s hi ha hn => ?_
  split
  case isFalse hcond =>
    have hwoken : s.woken n = false := by
      cases hw : s.woken n with
      | false => rfl
      | true => exact (hcond (hi.cond n hw)).elim
    refine .sleep rfl (by simp) (.cond (n := n) (by simp) fun _ w => w = false) ha hwoken
      fun s _ hw => ⟨by simp, fun m hm => ?_⟩
    injection hm with hm
    exact hm ▸ hw
  case isTrue =>
    refine .pick hA ha hn fun s w ha hn => ?_
    split
    case h_1 => exact .releaseObj ha hn
    case h_2 =>
      refine .modify (.true c _ _) ha trivial fun s hi ha _ => ?_
      refine ⟨cond_step hi ((ha.holds _).2 (by simp)) rfl (by simp), .releaseObj ⟨ha.stack, ha.cpu,
        ha.run, ha.holds⟩ fun hw => ?_⟩
      simp at hw

theorem KernelOk.make {s : Kmem C} (ha : At c (some p) [] s) :
    KernelOk c (Smp.make c p n before) s := by
  have hS (R : Slot → Prop) : Steady c (some p) [.obj n] (Kmem.SleepOnly (C := C) n R) :=
    .sleepOnly (by simp) R
  have hC : Steady c (some p) [.obj n] fun s : Kmem C => s.cond n = true :=
    .cond (n := n) (by simp) fun b _ => b = true
  have hwakeup {s : Kmem C} {k : Code C} {Q : Kmem C → Prop} (hQ : Steady c (some p) [.obj n] Q)
      (hw : ∀ i s s', Woken (.other n) i s s' → Q s → Q s') (ha : At c (some p) [.obj n] s) (hq : Q s)
      (hk : ∀ s, At c (some p) [.obj n] s → Q s ∧ s.SleepOnly n (· = p) → KernelOk c k s) :
      KernelOk c (Smp.wakeup c (some p) (.other n) k) s := by
    refine .wakeup (Q := fun r s => Q s ∧ s.SleepOnly n fun q => q = p ∨ q ∈ r)
      (fun r => .and hQ (hS _)) (by simp) (fun i r s s' hw' hq => ⟨hw i s s' hw' hq.1, fun q hq' => ?_⟩)
      ha ⟨hq, fun q _ => ?_⟩ fun s ha hq => hk s ha ⟨hq.1, fun q hq' => ?_⟩
    · refine (hq.2 q (hw'.asleep q _ hq')).imp_right fun hmem => ?_
      refine (List.mem_cons.1 hmem).resolve_left fun he => ?_
      subst he
      exact hw'.self hq'
    · by_cases hqp : q = p
      · exact .inl hqp
      · simp [Smp.slots, hqp]
    · simpa using hq.2 q hq'
  have hover (s : Kmem C) (ha : At c (some p) [.obj n] s)
      (hs : s.cond n = true ∧ s.SleepOnly n (· = p)) :
      KernelOk c (.modify (fun s => { s with woken := Function.update s.woken n true })
        (Smp.release c (.obj n) (.goto (.point p .user)))) s := by
    refine .modify (.and hC (hS _)) ha hs fun s hi ha hs => ?_
    refine ⟨cond_step hi ((ha.holds (.obj n)).2 (by simp)) (a := true) (b := true) ?_ (fun _ => rfl),
      .releaseObj ⟨ha.stack, ha.cpu, ha.run, ha.holds⟩ fun _ q hq => ?_⟩
    · rw [← hs.1, Function.update_eq_self]
    · have hq : s.asleep q = some (.other n) := hq
      rw [hs.2 q hq, (ha.run p rfl).2] at hq
      cases hq
  have hset {s : Kmem C} {k : Code C} {Q : Kmem C → Prop} (hQ : Steady c (some p) [.obj n] Q)
      (hq' : ∀ s f, Q s → Q { s with cond := f }) (ha : At c (some p) [.obj n] s) (hq : Q s)
      (hk : ∀ s, At c (some p) [.obj n] s → s.cond n = true ∧ Q s → KernelOk c k s) :
      KernelOk c (.modify (fun s => { s with cond := Function.update s.cond n true }) k) s := by
    refine .modify hQ ha hq fun s hi ha hq => ?_
    refine ⟨cond_step hi ((ha.holds (.obj n)).2 (by simp)) (a := true) (b := s.woken n) ?_
      (fun _ => rfl), hk _ ⟨ha.stack, ha.cpu, ha.run, ha.holds⟩ ⟨by simp, hq' s _ hq⟩⟩
    rw [Function.update_eq_self]
  refine .acquire (.true c _ []) ha trivial fun s hi hfree _ ha => ?_
  split
  case isTrue =>
    refine hset (.true c _ _) (fun _ _ h => h) ha trivial fun s ha hs => ?_
    refine hwakeup hC (fun i s s' hw hq => ?_) ha hs.1 hover
    rw [hw.step.cond]
    exact hq
  case isFalse =>
    refine hwakeup (.true c _ _) (fun _ _ _ _ h => h) ha trivial fun s ha hs => ?_
    exact hset (hS _) (fun _ _ h => h) ha hs.2 hover

end PbsCow

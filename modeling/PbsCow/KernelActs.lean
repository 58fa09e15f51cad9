import PbsCow.KernelLocks
import PbsCow.Pick

namespace PbsCow
set_option autoImplicit true

variable {C : Type}

/-- A process that is neither free nor a zombie becomes runnable or goes to sleep. -/
theorem Fine.waits {s s' : Kmem C} (hf : Fine s i) (h : SlotStep i s s')
    (hz : (s.proc i).state ≠ .ZOMBIE) (hu : (s.proc i).state ≠ .UNUSED)
    (hst : (s'.proc i).state = .RUNNABLE ∨ (s'.proc i).state = .SLEEPING)
    (hl : ∀ c, s.cpu c = some i → s.lock (.proc i) = some c)
    (ha : ∀ chan, s'.asleep i = some chan ↔ (s'.proc i).state = .SLEEPING ∧ (s'.proc i).chan = chan)
    (hp : (s'.proc i).parent = (s.proc i).parent) (hc : s'.context i = s.context i)
    (hk : s'.forker i = s.forker i) : Fine s' i := by
  have hne (x : ProcState) (hx : x ≠ .RUNNABLE) (hx' : x ≠ .SLEEPING) : (s'.proc i).state ≠ x := by
    intro he
    rcases hst with hst | hst
    · exact hx (he.symm.trans hst)
    · exact hx' (he.symm.trans hst)
  refine ⟨fun hr => (hne .RUNNING (by simp) (by simp) hr).elim, fun c hcpu => ?_,
    fun chan hch => .inl ((ha chan).1 hch), fun hs => (ha _).2 ⟨hs, rfl⟩,
    fun he => (hne .UNUSED (by simp) (by simp) he).elim,
    fun he => (hne .USED (by simp) (by simp) he).elim, by rw [hc]; exact hf.entry, ?_,
    fun he => (hne .ZOMBIE (by simp) (by simp) he).elim, fun e he hid => ?_, fun r hr hid => ?_, ?_⟩
  · rw [h.cpu] at hcpu
    rw [h.lock]
    exact .inr (hl c hcpu)
  · rw [hp, hk, h.initproc]
    exact hf.parent
  · rw [h.exits] at he
    rw [h.uid] at hid
    exact ((hf.exited e he hid).elim hz hu).elim
  · rw [h.reaps] at hr
    rw [h.uid] at hid
    exact (hu (hf.reaped r hr hid)).elim
  · rw [h.uid, h.nextuid]
    exact hf.uid

theorem Fine.lock_of_cpu {s : Kmem C} (hf : Fine s i) (hr : (s.proc i).state ≠ .RUNNING)
    (hc : s.cpu c = some i) : s.lock (.proc i) = some c :=
  (hf.cpu c hc).resolve_left hr

/-- Under the lock of a slot, a sleeper is not about to sleep any more. -/
theorem KernelInv.asleep_iff {s : Kmem C} (hi : KernelInv s) (hl : s.lock (.proc i) = some c)
    (hc : s.cpu c ≠ some i) (chan : Chan) :
    s.asleep i = some chan ↔ (s.proc i).state = .SLEEPING ∧ (s.proc i).chan = chan := by
  refine ⟨fun ha => ?_, fun hs => ?_⟩
  · rcases (hi.fine i).asleep chan ha with h | ⟨c', hc', hcpu⟩
    · exact h
    · rw [hl] at hc'
      injection hc' with hc'
      exact (hc (hc' ▸ hcpu)).elim
  · rw [(hi.fine i).sleeping hs.1, hs.2]

theorem SlotStep.wake {s s' : Kmem C} (h : SlotStep i s s') (hi : KernelInv s)
    (hl : s.lock (.proc i) = some c) (hs : (s.proc i).state = .SLEEPING)
    (hst : (s'.proc i).state = .RUNNABLE) (ha : s'.asleep i = none)
    (hp : (s'.proc i).parent = (s.proc i).parent) (hc : s'.context i = s.context i)
    (hk : s'.forker i = s.forker i) : KernelInv s' ∧ KernelGuar c s s' := by
  have hg : KernelGuar c s s' := by
    refine h.guar hl (fun _ hr => ?_) (fun hz => ?_) (.inl hp) fun chan hch => ?_
    · rw [hs] at hr
      cases hr
    · rw [hst] at hz
      cases hz
    · rw [ha] at hch
      cases hch
  refine ⟨h.inv hi hg ((hi.fine i).waits h (by rw [hs]; simp) (by rw [hs]; simp) (.inl hst) ?_ ?_ hp
    hc hk), hg⟩
  · exact fun c' => (hi.fine i).lock_of_cpu (by rw [hs]; simp)
  · intro chan
    rw [ha, hst]
    simp

/-- What a visit of `wakeup` to slot `i` does. -/
structure Woken (chan : Chan) (i : Slot) (s s' : Kmem C) : Prop where
  step : SlotStep i s s'
  self : s'.asleep i ≠ some chan
  asleep : ∀ j ch, s'.asleep j = some ch → s.asleep j = some ch
  zombie : ∀ j, (s'.proc j).state = .ZOMBIE ↔ (s.proc j).state = .ZOMBIE
  parent : ∀ j, (s'.proc j).parent = (s.proc j).parent

theorem wake_step {s : Kmem C} (hi : KernelInv s) (hl : s.lock (.proc i) = some c)
    (hc : s.cpu c ≠ some i) (chan : Chan) :
    (KernelInv (Smp.wake chan i s) ∧ KernelGuar c s (Smp.wake chan i s)) ∧
      Woken chan i s (Smp.wake chan i s) := by
  rw [Smp.wake]
  split
  case isFalse hs =>
    refine ⟨⟨hi, .refl c s⟩, ⟨⟨rfl, rfl, rfl, rfl, rfl, rfl, rfl, rfl⟩, rfl, rfl, rfl, fun _ _ => rfl,
      fun _ _ => rfl, fun _ _ => rfl, fun _ _ => rfl⟩, fun ha => ?_, fun _ _ h => h, fun _ => Iff.rfl,
      fun _ => rfl⟩
    exact hs ((hi.asleep_iff hl hc chan).1 ha)
  case isTrue hs =>
    generalize hs' : Kmem.setProc { s with asleep := Function.update s.asleep i none } i
      (fun q => { q with state := .RUNNABLE }) = s'
    have hself : s'.proc i = { s.proc i with state := .RUNNABLE } := by
      rw [← hs', Kmem.setProc_self]
    have ha : s'.asleep = Function.update s.asleep i none := by
      rw [← hs']
      rfl
    have hstep : SlotStep i s s' := by
      subst hs'
      exact ⟨⟨rfl, rfl, rfl, rfl, rfl, rfl, rfl, rfl⟩, rfl, rfl, rfl,
        fun _ hj => Kmem.setProc_of_ne _ hj _, fun _ hj => Function.update_of_ne hj _ _,
        fun _ _ => rfl, fun _ _ => rfl⟩
    have hai : s'.asleep i = none := by simp [ha]
    have hctx : s'.context i = s.context i ∧ s'.forker i = s.forker i := by
      subst hs'
      exact ⟨rfl, rfl⟩
    refine ⟨hstep.wake hi hl hs.1 (by rw [hself]) hai (by rw [hself]) hctx.1 hctx.2,
      hstep, by simp [hai], fun j ch hj => ?_, fun j => ?_, fun j => ?_⟩
    · by_cases hji : j = i
      · rw [hji, hai] at hj
        cases hj
      · rwa [hstep.asleep j hji] at hj
    · by_cases hji : j = i
      · rw [hji, hself, hs.1]
        simp
      · rw [hstep.proc j hji]
    · by_cases hji : j = i
      · rw [hji, hself]
      · rw [hstep.proc j hji]

/-- A write to fields of a slot that do not matter. -/
theorem SameSlot.write {s : Kmem C} {i : Slot} {f : Proc → Proc}
    (hst : (f (s.proc i)).state = (s.proc i).state) (hch : (f (s.proc i)).chan = (s.proc i).chan)
    (hp : (f (s.proc i)).parent = (s.proc i).parent)
    (hr : (f (s.proc i)).pid = (s.proc i).pid ∧ (f (s.proc i)).xstate = (s.proc i).xstate ∧
      (f (s.proc i)).rtime = (s.proc i).rtime ∧ (f (s.proc i)).ctime = (s.proc i).ctime ∧
      (f (s.proc i)).etime = (s.proc i).etime) : SameSlot s (s.setProc i f) i := by
  rw [← s.setProc_self i f] at hst hch hp hr
  exact ⟨hst, hch, hp, fun _ => hr, rfl, rfl, rfl⟩

theorem setKilled_step {s : Kmem C} (hi : KernelInv s) (hl : s.lock (.proc i) = some c) :
    KernelInv (Smp.setKilled i s) ∧ KernelGuar c s (Smp.setKilled i s) := by
  rw [Smp.setKilled]
  split
  case isFalse hs =>
    exact (SlotStep.setProc s i _).quiet (.write rfl rfl rfl ⟨rfl, rfl, rfl, rfl, rfl⟩) hi
  case isTrue hs =>
    generalize hs' : Kmem.setProc { s with asleep := Function.update s.asleep i none } i
      (fun q => { q with killed := true, state := .RUNNABLE }) = s'
    have hself : s'.proc i = { s.proc i with killed := true, state := .RUNNABLE } := by
      rw [← hs', Kmem.setProc_self]
    have hstep : SlotStep i s s' := by
      subst hs'
      exact ⟨⟨rfl, rfl, rfl, rfl, rfl, rfl, rfl, rfl⟩, rfl, rfl, rfl,
        fun _ hj => Kmem.setProc_of_ne _ hj _, fun _ hj => Function.update_of_ne hj _ _,
        fun _ _ => rfl, fun _ _ => rfl⟩
    have hai : s'.asleep i = none := by
      subst hs'
      exact Function.update_self i none s.asleep
    have hctx : s'.context i = s.context i ∧ s'.forker i = s.forker i := by
      subst hs'
      exact ⟨rfl, rfl⟩
    exact hstep.wake hi hl hs (by rw [hself]) hai (by rw [hself]) hctx.1 hctx.2

theorem charge_same (i : Slot) (s : Kmem C) :
    SlotStep i s (Smp.charge i s) ∧ SameSlot s (Smp.charge i s) i := by
  have hself : (Smp.charge i s).proc i = if (s.proc i).state = .RUNNING then
      { s.proc i with rtime := (s.proc i).rtime + 1 } else s.proc i := Kmem.setProc_self _ i _
  refine ⟨⟨⟨rfl, rfl, rfl, rfl, rfl, rfl, rfl, rfl⟩, rfl, rfl, rfl,
    fun _ hj => Kmem.setProc_of_ne _ hj _, fun _ _ => rfl, fun _ _ => rfl, fun _ _ => rfl⟩,
    ?_, ?_, ?_, fun hz => ?_, rfl, rfl, rfl⟩
  · rw [hself]
    split <;> rfl
  · rw [hself]
    split <;> rfl
  · rw [hself]
    split <;> rfl
  · rw [hself, if_neg (by rw [hz]; simp)]
    exact ⟨rfl, rfl, rfl, rfl, rfl⟩

theorem countTick_same (i : Slot) (s : Kmem C) :
    SlotStep i s (Smp.countTick i s) ∧ SameSlot s (Smp.countTick i s) i := by
  refine ⟨SlotStep.setProc s i _, .write ?_ ?_ ?_ ?_⟩
  · split <;> rfl
  · split <;> rfl
  · split <;> rfl
  · split <;> exact ⟨rfl, rfl, rfl, rfl, rfl⟩

theorem refresh_same (i : Slot) (s : Kmem C) :
    SlotStep i s (Smp.refresh i s) ∧ SameSlot s (Smp.refresh i s) i := by
  refine ⟨SlotStep.setProc s i _, .write ?_ ?_ ?_ ?_⟩
  all_goals
    dsimp only [_rbi]
    split <;> simp

end PbsCow

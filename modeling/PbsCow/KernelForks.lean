import PbsCow.KernelScan

namespace PbsCow
set_option autoImplicit true

variable {C : Type}

/-- A slot that is being set up or freed under its lock. -/
structure Setup (c : C) (i : Slot) (s s' : Kmem C) : Prop where
  step : SlotStep i s s'
  used : (s.proc i).state = .USED
  state : (s'.proc i).state = .USED ∨ (s'.proc i).state = .UNUSED
  asleep : s'.asleep i = s.asleep i
  entry : (s'.context i).Entry i
  parent : ∀ p, (s'.proc i).parent = some p →
    (s'.proc i).state = .USED ∧ s.cpu c = some p ∧ (p = s'.forker i ∨ p = s'.initproc)

theorem Setup.inv {s s' : Kmem C} (h : Setup c i s s') (hi : KernelInv s)
    (hl : s.lock (.proc i) = some c) (hc : s.cpu c ≠ some i) : KernelInv s' ∧ KernelGuar c s s' := by
  have hne (x : ProcState) (hx : x ≠ .USED) (hx' : x ≠ .UNUSED) : (s'.proc i).state ≠ x := by
    intro he
    rcases h.state with hst | hst
    · exact hx (he.symm.trans hst)
    · exact hx' (he.symm.trans hst)
  have hold (x : ProcState) (hx : x ≠ .USED) : (s.proc i).state ≠ x := fun he => hx (he ▸ h.used)
  have hg : KernelGuar c s s' :=
    h.step.guar hl (fun _ hr => (hold .RUNNING (by simp) hr).elim)
      (fun hz => (hne .ZOMBIE (by simp) (by simp) hz).elim) (.inr h.used)
      fun chan hch => h.asleep ▸ hch
  have hf := hi.fine i
  have hn := hi.awake hl hc (hold .SLEEPING (by simp))
  refine ⟨h.step.inv hi hg ⟨fun he => (hne .RUNNING (by simp) (by simp) he).elim, fun c' hcpu => ?_,
    fun chan hch => ?_, fun he => (hne .SLEEPING (by simp) (by simp) he).elim, fun hu => ?_, fun hu => ?_,
    h.entry, fun p hp => (h.parent p hp).2.2,
    fun he => (hne .ZOMBIE (by simp) (by simp) he).elim, fun e he hid => ?_, fun r hr hid => ?_, ?_⟩, hg⟩
  · rw [h.step.cpu] at hcpu
    rw [h.step.lock]
    exact .inr (hf.lock_of_cpu (hold .RUNNING (by simp)) hcpu)
  · rw [h.asleep, hn] at hch
    cases hch
  · cases hp : (s'.proc i).parent with
    | none => rfl
    | some p =>
      have := (h.parent p hp).1
      rw [hu] at this
      cases this
  · refine ⟨c, by rw [h.step.lock]; exact hl, fun p hp => ?_⟩
    rw [h.step.cpu]
    exact (h.parent p hp).2.1
  · rw [h.step.exits] at he
    rw [h.step.uid] at hid
    have := hf.exited e he hid
    simp [h.used] at this
  · rw [h.step.reaps] at hr
    rw [h.step.uid] at hid
    have := hf.reaped r hr hid
    simp [h.used] at this
  · rw [h.step.uid, h.step.nextuid]
    exact hf.uid

/-- `allocproc` takes a free slot, and a new process has a new identity. -/
theorem takeSlot_step {s : Kmem C} (hi : KernelInv s) (hl : s.lock (.proc i) = some c)
    (hc : s.cpu c ≠ some i) (hu : (s.proc i).state = .UNUSED) :
    KernelInv (Smp.takeSlot i s) ∧ KernelGuar c s (Smp.takeSlot i s) := by
  have hself : (Smp.takeSlot i s).proc i = { s.proc i with pid := s.nextpid, state := .USED } :=
    Kmem.setProc_self _ i _
  have hproc (j : Slot) (hj : j ≠ i) : (Smp.takeSlot i s).proc j = s.proc j :=
    Kmem.setProc_of_ne _ hj _
  have huid : (Smp.takeSlot i s).uid = Function.update s.uid i s.nextuid := rfl
  have hnext : (Smp.takeSlot i s).nextuid = s.nextuid + 1 := rfl
  have hst : ((Smp.takeSlot i s).proc i).state = .USED := by rw [hself]
  have hne (x : ProcState) (hx : x ≠ .USED) : ((Smp.takeSlot i s).proc i).state ≠ x :=
    fun he => hx (he ▸ hst)
  have hf := hi.fine i
  have hpar := hf.unused hu
  have hsame (j : Slot) (hj : j ≠ i) : SameSlot s (Smp.takeSlot i s) j := by
    have hp := hproc j hj
    exact ⟨by rw [hp], by rw [hp], by rw [hp], fun _ => by simp [hp], rfl, rfl, rfl⟩
  have hg : KernelGuar c s (Smp.takeSlot i s) := by
    refine ⟨fun _ _ => ⟨rfl, rfl⟩, fun _ _ _ => Iff.rfl, fun j hj => ?_, fun j _ hj => ?_,
      fun j _ hz => ?_, fun j _ => .inl ?_, fun _ _ _ h => h, fun _ _ => ⟨rfl, rfl⟩⟩
    · rw [hproc j fun he => hj (he ▸ hl)]
      exact ⟨rfl, rfl⟩
    · rw [hproc j fun he => by rw [he, hu] at hj; cases hj]
      exact ⟨hj, rfl⟩
    · by_cases hji : j = i
      · subst hji
        exact (hne .ZOMBIE (by simp) hz).elim
      · rwa [hproc j hji] at hz
    · by_cases hji : j = i
      · rw [hji, hself]
      · rw [hproc j hji]
  have hfine : Fine (Smp.takeSlot i s) i := by
    refine ⟨fun he => (hne .RUNNING (by simp) he).elim,
      fun c' hcpu => .inr (hf.lock_of_cpu (by rw [hu]; simp) hcpu), fun chan hch => ?_,
      fun he => (hne .SLEEPING (by simp) he).elim, fun he => (hne .UNUSED (by simp) he).elim,
      fun _ => ⟨c, hl, fun p hp => ?_⟩, hf.entry, fun p hp => ?_,
      fun he => (hne .ZOMBIE (by simp) he).elim, fun e he hid => ?_, fun r hr hid => ?_, ?_⟩
    · have hch : s.asleep i = some chan := hch
      rw [hi.awake hl hc (by rw [hu]; simp)] at hch
      cases hch
    · rw [hself, hpar] at hp
      cases hp
    · rw [hself, hpar] at hp
      cases hp
    · rw [huid, Function.update_self] at hid
      exact (lt_irrefl _ (hid ▸ hi.exits e he)).elim
    · rw [huid, Function.update_self] at hid
      obtain ⟨e, he, hof⟩ := hi.reaps r hr
      exact (lt_irrefl _ (hof.uid.trans hid ▸ hi.exits e he)).elim
    · rw [huid, hnext, Function.update_self]
      exact Nat.lt_succ_self _
  refine ⟨⟨fun j => ?_, hi.stack, hi.one, fun j k hjk => ?_, hi.init, fun e he => ?_, hi.exit_once,
    hi.reaps, hi.reap_once, fun h => hg.noMiss (s.free_ne h) (hi.noMiss h),
    fun n h hw => hg.noSleeper (s.free_ne h) (hi.noSleeper n h hw), hi.cond⟩, hg⟩
  · by_cases hji : j = i
    · exact hji ▸ hfine
    · refine (hi.fine j).other (hsame j hji) rfl (fun _ => Iff.rfl) (fun _ _ => rfl) rfl ?_ ?_
        (fun _ h => h) (fun _ h _ => h) fun _ h _ => h
      · rw [huid, Function.update_of_ne hji]
      · rw [hnext]
        exact Nat.le_succ _
  · rw [huid] at hjk
    by_cases hji : j = i
    · by_cases hki : k = i
      · rw [hji, hki]
      · rw [hji, Function.update_self, Function.update_of_ne hki] at hjk
        exact (lt_irrefl _ (hjk ▸ (hi.fine k).uid)).elim
    · rw [Function.update_of_ne hji] at hjk
      by_cases hki : k = i
      · rw [hki, Function.update_self] at hjk
        exact (lt_irrefl _ (hjk ▸ (hi.fine j).uid)).elim
      · rw [Function.update_of_ne hki] at hjk
        exact hi.uids j k hjk
  · rw [hnext]
    exact Nat.lt_succ_of_lt (hi.exits e he)

/-- The end of `allocproc` leaves the slot to `fork`. -/
theorem initSlot_setup {s : Kmem C} (hi : KernelInv s) (hl : s.lock (.proc np) = some c)
    (hu : (s.proc np).state = .USED) :
    Setup c np s (Smp.initSlot np s) ∧ ((Smp.initSlot np s).proc np).state = .USED := by
  have hself : (Smp.initSlot np s).proc np = _ := Kmem.setProc_self _ np _
  refine ⟨⟨⟨⟨rfl, rfl, rfl, rfl, rfl, rfl, rfl, rfl⟩, rfl, rfl, rfl,
    fun _ hj => Kmem.setProc_of_ne _ hj _, fun _ _ => rfl, fun _ hj => Function.update_of_ne hj _ _,
    fun _ _ => rfl⟩, hu, .inl (by rw [hself]; exact hu), rfl, ?_, fun q hq => ?_⟩,
    by rw [hself]; exact hu⟩
  · simp [Smp.initSlot, Kmem.setProc, Label.Entry]
  · rw [hself] at hq
    have hq : (s.proc np).parent = some q := hq
    obtain ⟨c', hc', hcpu⟩ := (hi.fine np).used hu
    rw [hl] at hc'
    injection hc' with hc'
    exact ⟨by rw [hself]; exact hu, hc' ▸ hcpu q hq, (hi.fine np).parent q hq⟩

/-- `fork` writes `np->parent` without `wait_lock`: the slot is not yet the child of anyone. -/
theorem parent_setup {s : Kmem C} (hi : KernelInv s) (hc : s.cpu c = some p)
    (hu : (s.proc np).state = .USED) :
    Setup c np s (Kmem.setProc { s with forker := Function.update s.forker np p } np fun q =>
      { q with parent := some p }) ∧
    ((Kmem.setProc { s with forker := Function.update s.forker np p } np fun q =>
      { q with parent := some p }).proc np).state = .USED := by
  have hself := Kmem.setProc_self { s with forker := Function.update s.forker np p } np fun q =>
    { q with parent := some p }
  refine ⟨⟨⟨⟨rfl, rfl, rfl, rfl, rfl, rfl, rfl, rfl⟩, rfl, rfl, rfl,
    fun _ hj => Kmem.setProc_of_ne _ hj _, fun _ _ => rfl, fun _ _ => rfl,
    fun _ hj => Function.update_of_ne hj _ _⟩, hu, .inl (by rw [hself]; exact hu), rfl,
    (hi.fine np).entry, fun q hq => ?_⟩, by rw [hself]; exact hu⟩
  rw [hself] at hq
  injection hq with hq
  subst hq
  exact ⟨by rw [hself]; exact hu, hc, .inl (by simp [Kmem.setProc])⟩

/-- A step of `fork` on the slot that it sets up. -/
theorem KernelOk.setup {s : Kmem C} {f : Kmem C → Kmem C} {P : Kmem C → Prop}
    (ha : At c (some p) [.proc np] s) (hu : (s.proc np).state = .USED)
    (hf : ∀ s, KernelInv s → At c (some p) [.proc np] s → (s.proc np).state = .USED →
      Setup c np s (f s) ∧ P (f s))
    (hk : ∀ s, At c (some p) [.proc np] s → P s → KernelOk c k s) : KernelOk c (.modify f k) s := by
  refine .modify (.state (by simp) fun st => st = .USED) ha hu fun s hi ha hu => ?_
  obtain ⟨hset, hp⟩ := hf s hi ha hu
  have hne : p ≠ np := by
    rintro rfl
    rw [(ha.run p rfl).1] at hu
    cases hu
  have hl := (ha.holds (.proc np)).2 (by simp)
  have hc : s.cpu c ≠ some np := by
    rw [ha.cpu]
    simpa using hne
  refine ⟨hset.inv hi hl hc, hk _ (ha.slotStep hset.step fun he => ?_) hp⟩
  injection he with he
  exact (hne he).elim

variable [DecidableEq C]

/-- The new process can run, and `fork` returns. -/
theorem KernelOk.forked {s : Kmem C} (ha : At c (some p) [.proc np] s)
    (hu : (s.proc np).state = .USED) :
    KernelOk c (.modify (fun s => s.setProc np fun q => { q with state := .RUNNABLE })
      (Smp.release c (.proc np) (.goto (.point p .user)))) s := by
  refine .modify (.state (by simp) fun st => st = .USED) ha hu fun s hi ha hu => ?_
  have hne : p ≠ np := by
    rintro rfl
    rw [(ha.run p rfl).1] at hu
    cases hu
  have hl := (ha.holds (.proc np)).2 (by simp)
  have hc : s.cpu c ≠ some np := by
    rw [ha.cpu]
    simpa using hne
  have hn := hi.awake hl hc (by rw [hu]; simp)
  have hself := s.setProc_self np fun q => { q with state := .RUNNABLE }
  have hstep := SlotStep.setProc s np fun q => { q with state := .RUNNABLE }
  have hg : KernelGuar c s (s.setProc np fun q => { q with state := .RUNNABLE }) := by
    refine hstep.guar hl (fun _ hr => ?_) (fun hz => ?_) (.inl (by rw [hself])) fun _ h => h
    · rw [hu] at hr
      cases hr
    · rw [hself] at hz
      cases hz
  refine ⟨⟨hstep.inv hi hg ((hi.fine np).waits hstep (by rw [hu]; simp) (by rw [hu]; simp)
    (.inl (by rw [hself])) (fun c' => (hi.fine np).lock_of_cpu (by rw [hu]; simp))
    (fun chan => by simp [hn]) (by rw [hself]) rfl rfl), hg⟩, ?_⟩
  refine .releaseSlot [] (by simp) (.true c (some p) _) (ha.slotStep hstep fun he => ?_) trivial ?_
    (by simp) fun s ha _ => ha
  · injection he with he
    exact (hne he).elim
  · simp

theorem KernelOk.fork {s : Kmem C} (ha : At c (some p) [] s) : KernelOk c (Smp.fork c p l) s := by
  cases l with
  | nil => exact ha
  | cons np l =>
    have hst (P : ProcState → Prop) : Steady c (some p) [.proc np] fun s : Kmem C =>
        P (s.proc np).state := .state (by simp) P
    have hfails (s : Kmem C) (ha : At c (some p) [.proc np] s) (hu : (s.proc np).state = .USED) :
        KernelOk c (.modify (Smp.freeproc np)
          (Smp.release c (.proc np) (.goto (.point p .user)))) s := by
      refine .setup (P := fun s => (s.proc np).state ≠ .USED) ha hu (fun s hi _ hu => ?_)
        fun s ha hu => .releaseSlot [] (by simp) (.true c (some p) _) ha trivial hu (by simp)
          fun s ha _ => ha
      have hself : (Smp.freeproc np s).proc np = _ := s.setProc_self np _
      exact ⟨⟨SlotStep.setProc s np _, hu, .inr (by rw [hself]), rfl, (hi.fine np).entry,
        fun q hq => by simp [hself] at hq⟩, by simp [hself]⟩
    refine .acquire (.true c _ []) ha trivial fun s hi hfree _ ha => ?_
    refine .read (hst (· ≠ .USED)) ha (hi.not_used hfree.1) fun s _ ha hu => ?_
    split
    case isFalse =>
      exact .releaseSlot [] (by simp) (.true c (some p) _) ha trivial hu (by simp) fun s ha _ => ha
    case isTrue hunused =>
      refine .modify (hst (· = .UNUSED)) ha hunused fun s hi ha hunused => ?_
      have hne : p ≠ np := by
        rintro rfl
        rw [(ha.run p rfl).1] at hunused
        cases hunused
      have hself : (Smp.takeSlot np s).proc np = { s.proc np with pid := s.nextpid, state := .USED } :=
        Kmem.setProc_self _ np _
      have hat : At c (some p) [.proc np] (Smp.takeSlot np s) := by
        refine ⟨ha.stack, ha.cpu, fun q hq => ?_, ha.holds⟩
        injection hq with hq
        subst hq
        rw [show (Smp.takeSlot np s).proc p = s.proc p from Kmem.setProc_of_ne _ hne _]
        exact ha.run p rfl
      refine ⟨takeSlot_step hi ((ha.holds _).2 (by simp)) (by rw [ha.cpu]; simpa using hne) hunused, ?_⟩
      refine .pick (hst (· = .USED)) hat (by rw [hself]) fun s w ha hu => ?_
      split
      case h_1 => exact hfails s ha hu
      have hlast (s : Kmem C) (ha : At c (some p) [.proc np] s) (hu : (s.proc np).state = .USED) :
          KernelOk c (.modify (fun s => Kmem.setProc { s with
            forker := Function.update s.forker np p } np fun q => { q with parent := some p })
            (.modify (fun s => s.setProc np fun q => { q with state := .RUNNABLE })
              (Smp.release c (.proc np) (.goto (.point p .user))))) s :=
        .setup (P := fun s => (s.proc np).state = .USED) ha hu
          (fun s hi ha hu => parent_setup hi ha.cpu hu) fun s ha hu => .forked ha hu
      refine .setup (P := fun s => (s.proc np).state = .USED) ha hu (fun s hi ha hu =>
        initSlot_setup hi ((ha.holds _).2 (by simp)) hu) fun s ha hu => ?_
      refine .pick (hst (· = .USED)) ha hu fun s w ha hu => ?_
      split
      case h_1 => exact hfails s ha hu
      exact hlast s ha hu

end PbsCow

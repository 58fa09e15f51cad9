import PbsCow.KernelInv

namespace PbsCow
set_option autoImplicit true

variable {C : Type}

/-- A step that takes and drops no lock, and neither creates nor ends a process. -/
structure SameLogs (s s' : Kmem C) : Prop where
  lock : s'.lock = s.lock
  uid : s'.uid = s.uid
  nextuid : s'.nextuid = s.nextuid
  initproc : s'.initproc = s.initproc
  exits : s'.exits = s.exits
  reaps : s'.reaps = s.reaps
  woken : s'.woken = s.woken
  cond : s'.cond = s.cond

/-- A step that changes one slot only. -/
structure SlotStep (i : Slot) (s s' : Kmem C) : Prop extends SameLogs s s' where
  cpu : s'.cpu = s.cpu
  stack : s'.stack = s.stack
  saved : s'.saved = s.saved
  proc : ∀ j, j ≠ i → s'.proc j = s.proc j
  asleep : ∀ j, j ≠ i → s'.asleep j = s.asleep j
  context : ∀ j, j ≠ i → s'.context j = s.context j
  forker : ∀ j, j ≠ i → s'.forker j = s.forker j

theorem SlotStep.setProc (s : Kmem C) (i : Slot) (f : Proc → Proc) : SlotStep i s (s.setProc i f) :=
  ⟨⟨rfl, rfl, rfl, rfl, rfl, rfl, rfl, rfl⟩, rfl, rfl, rfl, fun _ hj => s.setProc_of_ne hj f,
    fun _ _ => rfl, fun _ _ => rfl, fun _ _ => rfl⟩

/-- Nothing that matters has happened to the slot. -/
structure SameSlot (s s' : Kmem C) (i : Slot) : Prop where
  state : (s'.proc i).state = (s.proc i).state
  chan : (s'.proc i).chan = (s.proc i).chan
  parent : (s'.proc i).parent = (s.proc i).parent
  record : (s.proc i).state = .ZOMBIE →
    (s'.proc i).pid = (s.proc i).pid ∧ (s'.proc i).xstate = (s.proc i).xstate ∧
    (s'.proc i).rtime = (s.proc i).rtime ∧ (s'.proc i).ctime = (s.proc i).ctime ∧
    (s'.proc i).etime = (s.proc i).etime
  asleep : s'.asleep i = s.asleep i
  context : s'.context i = s.context i
  forker : s'.forker i = s.forker i

/-- A slot to which nothing happens stays fine, whatever is written about others. -/
theorem Fine.other {s s' : Kmem C} (hf : Fine s j) (hj : SameSlot s s' j) (hl : s'.lock = s.lock)
    (hc : ∀ c, s'.cpu c = some j ↔ s.cpu c = some j)
    (hh : ∀ c, s.lock (.proc j) = some c → s'.cpu c = s.cpu c) (hi : s'.initproc = s.initproc)
    (hid : s'.uid j = s.uid j) (hn : s.nextuid ≤ s'.nextuid) (he : ∀ e ∈ s.exits, e ∈ s'.exits)
    (he' : ∀ e ∈ s'.exits, e.uid = s.uid j → e ∈ s.exits)
    (hr : ∀ r ∈ s'.reaps, r.uid = s.uid j → r ∈ s.reaps) : Fine s' j := by
  refine ⟨fun hrun => ?_, fun c hcpu => ?_, fun chan ha => ?_, ?_, ?_, fun hu => ?_, ?_, ?_,
    fun hz => ?_, fun e hmem hu => ?_, fun r hmem hu => ?_, ?_⟩
  · rw [hj.state] at hrun
    obtain ⟨c, hcpu⟩ := hf.running hrun
    exact ⟨c, (hc c).2 hcpu⟩
  · rw [hj.state, hl]
    exact hf.cpu c ((hc c).1 hcpu)
  · rw [hj.asleep] at ha
    rw [hj.state, hj.chan, hl]
    rcases hf.asleep chan ha with h | ⟨c, hlock, hcpu⟩
    · exact .inl h
    · exact .inr ⟨c, hlock, (hc c).2 hcpu⟩
  · rw [hj.state, hj.asleep, hj.chan]
    exact hf.sleeping
  · rw [hj.state, hj.parent]
    exact hf.unused
  · rw [hj.state] at hu
    obtain ⟨c, hlock, hp⟩ := hf.used hu
    refine ⟨c, by rw [hl]; exact hlock, fun p hpar => ?_⟩
    rw [hj.parent] at hpar
    rw [hh c hlock]
    exact hp p hpar
  · rw [hj.context]
    exact hf.entry
  · rw [hj.parent, hj.forker, hi]
    exact hf.parent
  · rw [hj.state] at hz
    obtain ⟨e, hmem, ho⟩ := hf.zombie hz
    obtain ⟨h₁, h₂, h₃, h₄, h₅⟩ := hj.record hz
    refine ⟨e, he e hmem, ?_⟩
    rw [Exit.Of, hid, h₁, h₂, h₃, h₄, h₅]
    exact ho
  · rw [hid] at hu
    rw [hj.state]
    exact hf.exited e (he' e hmem hu) hu
  · rw [hid] at hu
    rw [hj.state]
    exact hf.reaped r (hr r hmem hu) hu
  · rw [hid]
    exact lt_of_lt_of_le hf.uid hn

theorem SameLogs.fine {s s' : Kmem C} (h : SameLogs s s') (hf : Fine s j) (hj : SameSlot s s' j)
    (hc : ∀ c, s'.cpu c = some j ↔ s.cpu c = some j)
    (hh : ∀ c, s.lock (.proc j) = some c → s'.cpu c = s.cpu c) : Fine s' j := by
  refine hf.other hj h.lock hc hh h.initproc (by rw [h.uid]) (by rw [h.nextuid])
    (fun e he => by rwa [h.exits]) (fun e he _ => ?_) fun r hr _ => ?_
  · rwa [h.exits] at he
  · rwa [h.reaps] at hr

theorem SlotStep.same {s s' : Kmem C} (h : SlotStep i s s') (hj : j ≠ i) : SameSlot s s' j := by
  have hp := h.proc j hj
  exact ⟨by rw [hp], by rw [hp], by rw [hp], fun _ => by simp [hp], h.asleep j hj, h.context j hj,
    h.forker j hj⟩

theorem SlotStep.fine {s s' : Kmem C} (h : SlotStep i s s') (hf : Fine s j) (hj : SameSlot s s' j) :
    Fine s' j :=
  h.toSameLogs.fine hf hj (fun c => by rw [h.cpu]) fun c _ => by rw [h.cpu]

theorem SameLogs.inv {s s' : Kmem C} (h : SameLogs s s') (hi : KernelInv s)
    (hg : KernelGuar c s s') (hf : ∀ i, Fine s' i)
    (hs : ∀ c p, s'.stack c = some p → s'.cpu c = some p ∧ s'.saved c = .back p)
    (ho : ∀ c c' p, s'.cpu c = some p → s'.cpu c' = some p → c = c') : KernelInv s' := by
  refine ⟨hf, hs, ho, ?_, ?_, ?_, ?_, ?_, ?_, fun hl => ?_, fun n hl hw => ?_, ?_⟩
  · rw [h.uid]
    exact hi.uids
  · rw [h.initproc]
    exact hi.init
  · rw [h.exits, h.nextuid]
    exact hi.exits
  · rw [h.exits]
    exact hi.exit_once
  · rw [h.reaps, h.exits, h.initproc]
    exact hi.reaps
  · rw [h.reaps]
    exact hi.reap_once
  · rw [h.lock] at hl
    exact hg.noMiss (by rw [hl]; simp) (hi.noMiss hl)
  · rw [h.lock] at hl
    rw [h.woken] at hw
    exact hg.noSleeper (by rw [hl]; simp) (hi.noSleeper n hl hw)
  · rw [h.woken, h.cond]
    exact hi.cond

/-- The invariant after a step that changes one slot. -/
theorem SlotStep.inv {s s' : Kmem C} (h : SlotStep i s s') (hi : KernelInv s) (hg : KernelGuar c s s')
    (hf : Fine s' i) : KernelInv s' := by
  refine h.toSameLogs.inv hi hg (fun j => ?_) ?_ ?_
  · by_cases hj : j = i
    · exact hj ▸ hf
    · exact h.fine (hi.fine j) (h.same hj)
  · rw [h.stack, h.cpu, h.saved]
    exact hi.stack
  · rw [h.cpu]
    exact hi.one

/-- A step under the lock of the one slot that it changes. -/
theorem SlotStep.guar {s s' : Kmem C} (h : SlotStep i s s') (hl : s.lock (.proc i) = some c)
    (hr : s.cpu c ≠ some i → (s.proc i).state = .RUNNING →
      (s'.proc i).state = .RUNNING ∧ s'.asleep i = s.asleep i)
    (hz : (s'.proc i).state = .ZOMBIE → (s.proc i).state = .ZOMBIE)
    (hp : (s'.proc i).parent = (s.proc i).parent ∨ (s.proc i).state = .USED)
    (ha : ∀ chan, s'.asleep i = some chan → s.asleep i = some chan) : KernelGuar c s s' := by
  refine ⟨fun c' _ => by rw [h.cpu, h.stack]; exact ⟨rfl, rfl⟩, fun l c' _ => by rw [h.lock],
    fun j hj => ?_, fun j hc hj => ?_, fun j _ hj => ?_, fun j _ => ?_, fun j chan _ hj => ?_,
    fun n _ => by rw [h.woken, h.cond]; exact ⟨rfl, rfl⟩⟩
  · have hji : j ≠ i := fun he => hj (he ▸ hl)
    rw [h.proc j hji]
    exact ⟨rfl, h.asleep j hji⟩
  · by_cases hji : j = i
    · subst hji
      exact hr hc hj
    · rw [h.proc j hji]
      exact ⟨hj, h.asleep j hji⟩
  · by_cases hji : j = i
    · subst hji
      exact hz hj
    · rwa [h.proc j hji] at hj
  · by_cases hji : j = i
    · subst hji
      exact hp.imp_right fun hu => ⟨hu, hl⟩
    · rw [h.proc j hji]
      exact .inl rfl
  · by_cases hji : j = i
    · subst hji
      exact ha chan hj
    · rwa [h.asleep j hji] at hj

/-- A step that leaves alone what matters of its slot. -/
theorem SlotStep.quiet {s s' : Kmem C} (h : SlotStep i s s') (hs : SameSlot s s' i)
    (hi : KernelInv s) : KernelInv s' ∧ KernelGuar c s s' := by
  have hall (j : Slot) : SameSlot s s' j := by
    by_cases hj : j = i
    · exact hj ▸ hs
    · exact h.same hj
  have hg : KernelGuar c s s' := by
    refine ⟨fun c' _ => by rw [h.cpu, h.stack]; exact ⟨rfl, rfl⟩, fun l c' _ => by rw [h.lock],
      fun j _ => ⟨(hall j).state, (hall j).asleep⟩, fun j _ hj => ⟨(hall j).state.trans hj, (hall j).asleep⟩,
      fun j _ hj => (hall j).state.symm.trans hj, fun j _ => .inl (hall j).parent,
      fun j chan _ hj => (hall j).asleep.symm.trans hj,
      fun n _ => by rw [h.woken, h.cond]; exact ⟨rfl, rfl⟩⟩
  exact ⟨h.inv hi hg (h.fine (hi.fine i) hs), hg⟩

end PbsCow

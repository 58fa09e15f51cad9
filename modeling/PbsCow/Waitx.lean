import PbsCow.RunTime

namespace PbsCow
set_option autoImplicit true

variable {C : Type}

theorem TimeOk.refresh (hk : TimeOk c k) : TimeOk c (.modify (Smp.refresh i) k) := by
  refine .modify (fun s => (Calm.refl c s).setProc ?_) hk
  dsimp only [_rbi]
  split <;> exact ⟨rfl, rfl⟩

/-- CPU `c` distributes a tick, and has still to visit the slots in the list. -/
def Kmem.Charging (c : C) (l : List Slot) (s : Kmem C) : Prop :=
  s.lock .ticks = some c ∧ ∀ i ∈ l, s.due i = true

theorem Kmem.Charging.stable (c : C) (l : List Slot) :
    timeContract.Stable c (Kmem.Charging c l) := by
  rintro s s' h ⟨_, _, c', hc, hg⟩
  obtain ⟨hl, hd⟩ := hg c (fun he => hc he.symm) h.1
  refine ⟨hl, ?_⟩
  rw [hd]
  exact h.2

/-- Whether the step leaves all slots due. -/
def keepsDue (s : Kmem C) : Code C → Bool
  | .act f _ => ((f { s with due := fun _ => true }).map fun s => Smp.slots.all s.due) == some true
  | _ => true

/-- A test that is enough: the step leaves all slots due, or whoever runs was created before this
tick. -/
def inTime (_ : C) (k : Code C) (s : Kmem C) : Bool :=
  decide (s.now < 2 ^ 32) && (keepsDue s k || Smp.slots.all fun i =>
    (s.proc i).state ≠ .RUNNING || decide (s.born i < s.now))

theorem keepsDue_charge (s : Kmem C) (i : Slot) (k : Code C) :
    keepsDue s (.modify (Smp.charge i) k) = false := by
  have hall : Smp.slots.all (Smp.charge i { s with due := fun _ => true }).due = false := by
    rw [List.all_eq_false]
    exact ⟨i, by simp [Smp.slots], by simp [Smp.charge, Kmem.setProc]⟩
  simp only [keepsDue, Prog.modify, Option.map_some, hall]
  rfl

theorem inTime_sound (k : Code C) (s : Kmem C) (h : inTime c k s = true) : InTime c k s := by
  rw [inTime, Bool.and_eq_true, Bool.or_eq_true, decide_eq_true_eq] at h
  obtain ⟨hnow, h⟩ := h
  refine ⟨fun i k' hk hr => ?_, fun p _ _ _ => lt_of_le_of_lt (Nat.sub_le _ _) hnow⟩
  rcases h with h | h
  · rw [hk, keepsDue_charge] at h
    cases h
  · have := List.all_eq_true.1 h i (by simp [Smp.slots])
    simpa [hr] using this

variable [DecidableEq C] {c : C}

theorem TimeOk.scan : TimeOk c (Smp.scan c l h) := by
  induction l generalizing h with
  | nil => exact .goto
  | cons p l ih =>
    have htake : TimeOk c (Smp.release c (.proc h) (Smp.scan c l p)) := .release ih
    have hkeep : TimeOk c (Smp.release c (.proc p) (Smp.scan c l h)) := .release ih
    exact .refresh (.acquire (.read fun s => .ite (.read fun s => .ite htake (.read fun s =>
      .ite htake (.read fun s => .ite htake hkeep))) hkeep))

theorem TimeOk.scanFirst : TimeOk c (Smp.scanFirst c l) := by
  cases l with
  | nil => exact .goto
  | cons p l =>
    exact .refresh (.acquire (.read fun s => .ite (.modify (fun s => ⟨fun _ => ⟨rfl, rfl⟩, rfl, rfl, rfl,
      rfl, rfl, fun _ _ h => h⟩) .scan) (.release .goto)))

/-- The loop of `update_time`: each slot that it visits is due, since it comes once in the table. -/
theorem TimeOk.updateTime {s : Kmem C} (hl : l.Nodup) (hs : s.Charging c l) (hk : TimeOk c k) :
    timeContract.Ok InTime c (Smp.visit c Smp.charge k l) s := by
  induction l generalizing s with
  | nil => exact hk s
  | cons i l ih =>
    obtain ⟨hi, hl⟩ := List.nodup_cons.1 hl
    have hst := Kmem.Charging.stable c (i :: l)
    refine .modify hst hs fun s hinv hs =>
      ⟨(Calm.spin c s _).inv hinv, (Calm.spin c s _).guar, ?_⟩
    refine .act hst hs fun s s' hinv hs h => ?_
    split at h
    case isFalse => cases h
    case isTrue hfree =>
      injection h with h
      subst h
      refine ⟨(Calm.take hfree).inv hinv, (Calm.take hfree).guar, ?_⟩
      have hs : (s.take c (.proc i)).Charging c (i :: l) := ⟨by simpa using hs.1, hs.2⟩
      refine ⟨Kmem.Charging c (i :: l), hst, hs, fun s s' hinv hs hd h => ?_⟩
      injection h with h
      subst h
      refine ⟨hinv.charge (hs.2 i (by simp)) (hd.1 i _ rfl), fun c' hc hl => ?_, ?_⟩
      · exact (hc (Option.some.inj (hl.symm.trans hs.1))).elim
      refine .act (Kmem.Charging.stable c l) ⟨hs.1, fun j hj => ?_⟩ fun s s' hinv hs h =>
        ⟨(Calm.release h).inv hinv, (Calm.release h).guar, ih hl ⟨?_, ?_⟩⟩
      · have hji : j ≠ i := by
          rintro rfl
          exact hi hj
        exact (Function.update_of_ne hji _ _).trans (hs.2 j (by simp [hj]))
      · rw [Kmem.release] at h
        split at h
        case isFalse => cases h
        case isTrue =>
          injection h with h
          subst h
          simpa using hs.1
      · rw [(Calm.release h).due]
        exact hs.2

theorem TimeOk.countTick (hk : TimeOk c k) : TimeOk c (Smp.visit c Smp.countTick k l) := by
  refine .visit (fun i s => (Calm.refl c s).setProc ?_) hk
  split <;> exact ⟨rfl, rfl⟩

theorem TimeOk.clockintr (hk : TimeOk c k) : TimeOk c (Smp.clockintr c me k) := by
  intro s
  have htrue : timeContract.Stable c fun _ : Kmem C => True := fun _ _ _ _ => trivial
  refine .modify htrue trivial fun s hi _ => ⟨(Calm.spin c s _).inv hi, (Calm.spin c s _).guar, ?_⟩
  refine .act htrue trivial fun s s' hi _ h => ?_
  split at h
  case isFalse => cases h
  case isTrue hfree =>
    injection h with h
    subst h
    refine ⟨(Calm.take hfree).inv hi, (Calm.take hfree).guar, ?_⟩
    refine .modify (Kmem.Charging.stable c []) ⟨by simp, by simp⟩ fun s hi hs =>
      ⟨hi.tick, fun c' hc hl => ?_, ?_⟩
    · exact (hc (Option.some.inj (hl.symm.trans hs.1))).elim
    · exact TimeOk.updateTime (List.nodup_finRange NPROC) ⟨hs.1, fun _ _ => rfl⟩
        (.countTick (.wakeup (.release hk)))

theorem TimeOk.goOn : TimeOk c (Smp.goOn c p q w) := by
  cases q with
  | user =>
    cases w with
    | fault => exact .setProc (fun _ _ => ⟨rfl, rfl⟩) .goto
    | _ => exact .goto
  | exit status => exact .exit
  | wait x addr => exact .acquire .waitScan
  | kill pid l => exact .kill
  | fork l => exact .fork
  | setPriority pid new_priority l do_yield => exact .setPriority
  | sleep n ticks0 => exact .sysSleep
  | test n => exact .test
  | make n before => exact .make

theorem TimeOk.body (boot c : C) (l : Label) : TimeOk c (Smp.body boot (Smp.process boot) c l) := by
  have hsame {f : Kmem C → Kmem C} (hf : ∀ s, ∃ g h, f s = { s with cpu := g, saw := h }) (s : Kmem C) :
      Calm c s (f s) := by
    obtain ⟨g, h, he⟩ := hf s
    rw [he]
    exact ⟨fun _ => ⟨rfl, rfl⟩, rfl, rfl, rfl, rfl, rfl, fun _ _ h => h⟩
  cases l with
  | scan l =>
    refine .pick fun w => ?_
    split
    · exact .ite (.clockintr .goto) .goto
    · exact .scanFirst
  | chosen h =>
    cases h with
    | none => exact .goto
    | some h =>
      refine .read fun s => .ite (.modify (fun s => ?_) (.act (fun s s' h => ?_) fun _ => .goto)) .goto
      · exact (hsame (fun s => ⟨_, s.saw, rfl⟩) s).setProc ⟨rfl, rfl⟩
      · injection h with h
        subst h
        exact ⟨fun _ => ⟨rfl, rfl⟩, rfl, rfl, rfl, rfl, rfl, fun _ _ h => h⟩
  | back h => exact .modify (hsame fun s => ⟨_, _, rfl⟩) (.release .goto)
  | point p q =>
    refine .pick fun w => ?_
    split
    · exact .ite (.clockintr .yield) .yield
    · exact .goOn
  | forkret p => exact .release .goto
  | yielded p q => exact .release .goto
  | slept p q => exact .setProc (fun _ _ => ⟨rfl, rfl⟩) (.release .goto)
  | dead p => exact fun _ => trivial

theorem time_sound (boot : C) : timeContract.Sound InTime (Smp.body boot (Smp.process boot)) :=
  ⟨fun _ _ _ _ h => ⟨h, rfl⟩, fun _ _ _ _ _ _ => trivial, fun _ _ _ _ _ => trivial,
    fun c l s _ _ _ => TimeOk.body boot c l s⟩

theorem timeInv_start (C : Type) : TimeInv (Kmem.start C) := by
  refine ⟨fun i => ⟨?_, le_refl 0, ?_, fun h => ?_⟩, rfl, by simp [Kmem.start]⟩
  · by_cases hi : i = Smp.first
    · simp [Kmem.start, hi, Proc.zero]
    · simp [Kmem.start, hi, Proc.zero]
  · by_cases hi : i = Smp.first
    · simp [Kmem.start, hi, Proc.zero]
    · simp [Kmem.start, hi, Proc.zero]
  · cases h

/-- If no process is charged for the tick in which it was created or lives for 2^32 ticks, no process
has run for longer than it has lived, and the times that `waitx` reports add up. -/
theorem run_time_adds_up {boot : C} {x : Threads C (Kmem C) Input Label}
    (h : ReachIf (Smp.body boot (Smp.process boot)) InTime (Smp.start C) x) :
    (∀ e ∈ x.mem.exits, e.rtime ≤ e.etime - e.ctime) ∧
    ∀ r ∈ x.mem.reaps, ∃ e ∈ x.mem.exits, e.uid = r.uid ∧ ∀ rtime wtime,
      r.rtime = some rtime → r.wtime = some wtime → rtime = e.rtime ∧ wtime ≤ e.etime - e.ctime ∧
        rtime.toNat + wtime.toNat = (e.etime - e.ctime).toNat := by
  have hstart : timeContract.Kept InTime (Smp.start C) := ⟨timeInv_start C, fun _ => trivial⟩
  have hexits := (hstart.reach (time_sound boot) h).inv.exits
  refine ⟨hexits, fun r hr => ?_⟩
  obtain ⟨e, he, ho⟩ := (kernel_kept boot (h.mono fun _ _ _ _ => trivial)).inv.reaps r hr
  refine ⟨e, he, ho.uid, fun t v ht hv => ?_⟩
  have hle := hexits e he
  rw [ho.rtime t ht, ho.wtime v hv]
  rw [BitVec.le_def] at hle ⊢
  have hsub : (e.etime - e.ctime - e.rtime).toNat = (e.etime - e.ctime).toNat - e.rtime.toNat :=
    BitVec.toNat_sub_of_le hle
  refine ⟨rfl, ?_, ?_⟩
  · rw [hsub]
    exact Nat.sub_le _ _
  · rw [hsub]
    exact Nat.add_sub_cancel' hle

/-- A child runs for one tick and exits; `waitx` reports that it has run for 1 tick and waited for
none. -/
theorem run_time_adds_up_child : ∃ x : Threads (Fin 8) (Kmem (Fin 8)) Input Label,
    x.mem.reaps.map (fun r => (r.rtime, r.wtime)) = [(some 1, some 0)] ∧
    ∀ e ∈ x.mem.exits, e.rtime ≤ e.etime - e.ctime := by
  let steps := Smp.forks ++ Smp.steps 2 331 ++ (0, .go) :: (0, .intr) :: Smp.steps 0 11 ++
    (2, .call (.exit 7)) :: Smp.steps 2 330 ++ Smp.steps 1 1 ++ (1, .call (.wait true 0)) ::
    Smp.steps 1 13
  have hrun : ((Smp.start (Fin 8)).runIf (Smp.body 0 (Smp.process 0)) inTime steps).map
      (fun x => x.mem.reaps.map (fun r => (r.rtime, r.wtime))) = some [(some 1, some 0)] := by
    decide +kernel
  obtain ⟨x, hx, hr⟩ := Option.map_eq_some_iff.1 hrun
  exact ⟨x, hr, (run_time_adds_up (.of_run (fun _ => inTime_sound) hx)).1⟩

/-- CPU 0 has counted a tick and visited only the first slot when `init` forks; the child runs on CPU 2
when CPU 0 comes to its slot, and exits before the next tick: it has run for longer than it has
lived. -/
theorem run_time_exceeds_life : ∃ x : Threads (Fin 8) (Kmem (Fin 8)) Input Label,
    Reach (Smp.body 0 (Smp.process 0)) (Smp.start (Fin 8)) x ∧
    ∃ e ∈ x.mem.exits, ¬ e.rtime ≤ e.etime - e.ctime := by
  let steps : List (Fin 8 × Input) := Smp.steps 1 329 ++ (0, .go) :: (0, .intr) :: Smp.steps 0 7 ++
    (1, .call .fork) :: Smp.steps 1 18 ++ Smp.steps 2 331 ++ Smp.steps 0 4 ++
    (2, .call (.exit 7)) :: Smp.steps 2 330
  have hrun : ((Smp.start (Fin 8)).run (Smp.body 0 (Smp.process 0)) steps).map
      (fun x => x.mem.exits.map fun e => (e.rtime, e.ctime, e.etime)) = some [(1, 1, 1)] := by
    decide +kernel
  obtain ⟨x, hx, he⟩ := Option.map_eq_some_iff.1 hrun
  refine ⟨x, .of_run hx, ?_⟩
  obtain ⟨e, l, hl, he, _⟩ := List.map_eq_cons_iff.1 he
  simp only [Prod.mk.injEq] at he
  refine ⟨e, by simp [hl], ?_⟩
  rw [he.1, he.2.1, he.2.2]
  decide

end PbsCow

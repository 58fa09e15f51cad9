import PbsCow.ModestKernel

namespace PbsCow
set_option autoImplicit true

variable {C : Type}

theorem slots_sorted : Smp.slots.Pairwise (· < ·) := List.pairwise_lt_finRange NPROC

theorem start_kept : lockContract.Kept (fun _ _ _ => True) (Smp.start C) := by
  refine ⟨⟨by simp [Smp.start, Kmem.start], fun c => ⟨Smp.first, Smp.first, by simp [Smp.start, Kmem.start]⟩,
    fun i => rfl⟩, fun c => ⟨slots_sorted, ?_⟩⟩
  exact ⟨by simp [Kmem.Holds, Smp.start, Kmem.start], by simp, by simp, by simp [Smp.start, Kmem.start]⟩

/-- The process lock on which a CPU spins. -/
def Kmem.wants (s : Kmem C) (c : C) : Option Slot :=
  match s.spin c with
  | some (.proc i) => some i
  | _ => none

theorem Kmem.wants_eq {s : Kmem C} (h : s.wants c = some i) : s.spin c = some (.proc i) := by
  rw [wants] at h
  split at h
  case h_1 j hj =>
    injection h with h
    exact h ▸ hj
  case h_2 => cases h

variable [DecidableEq C]

theorem LockOk.visit {f : Slot → Kmem C → Kmem C} (hf : ∀ i s, Local c (some i) s (f i s))
    (ho : Own c [] [] me s) (hk : ∀ s, Own c [] [] me s → LockOk c k s) :
    LockOk c (Smp.visit c f k l) s := by
  induction l generalizing s with
  | nil => exact hk s ho
  | cons i l ih =>
    refine .acquire ho (by simp) (by simp) fun s ho => .local ho (q := some i) (fun s s' h => ?_)
      (by simp) fun _ s ho => .release [] ho (by simp) (by simp) fun s ho => ih ho
    injection h with h
    exact h ▸ hf i s

theorem LockOk.clockintr {s : Kmem C} (ho : Own c [] [] me s)
    (hk : ∀ s, Own c [] [] me s → LockOk c k s) : LockOk c (Smp.clockintr c me k) s := by
  have hticks (i : Slot) : Lock.ticks ≠ .proc i := by simp
  refine .local (q := none) ho (fun s s' h => ?_) (by simp) fun _ s ho => ?_
  · injection h with h
    exact h ▸ .startSpin s hticks
  refine .local (q := none) ho (fun s s' h => ?_) (by simp) fun _ s ho => ?_
  · split at h
    · injection h with h
      exact h ▸ .takeLock s hticks
    · cases h
  refine .local (q := none) ho (fun s s' h => ?_) (by simp) fun _ s ho => ?_
  · injection h with h
    exact h ▸ .of_state rfl rfl rfl rfl rfl fun _ _ => rfl
  refine .visit (Local.charge c) ho fun s ho => .visit (fun i s => .setProc c s i _) ho fun s ho => ?_
  refine .visit (Local.wake c .ticks) ho fun s ho => ?_
  exact .local (q := none) ho (fun s s' h => .dropLock hticks h) (by simp) fun _ => hk

theorem scanFirst_ok {s : Kmem C} (hl : l.Pairwise (· < ·)) (ho : Own c [] [] none s) :
    LockOk c (Smp.scanFirst c l) s := by
  cases l with
  | nil => exact ho
  | cons p l =>
    refine .refresh ho fun s ho => .acquire ho (by simp) (by simp) fun s ho => .read ho fun s ho => ?_
    split
    case isFalse =>
      exact .release [] ho (by simp) (by simp) fun s ho => ⟨(List.pairwise_cons.1 hl).2, ho⟩
    case isTrue hr =>
      have hst : lockContract.Stable c fun s => Own c [p] [] none s ∧ (s.proc p).state = .RUNNABLE := by
        rintro s s' ⟨ho, hr⟩ hrely
        refine ⟨Own.stable c [p] [] none s s' ho hrely, ?_⟩
        obtain ⟨_, _, c', hc, hg⟩ := hrely
        rw [hg.state p ?_, hr]
        rw [(ho.holds p).2 (by simp)]
        intro he
        injection he with he
        exact hc he.symm
      refine .modify hst ⟨ho, hr⟩ fun s hi ⟨ho, hr⟩ => ⟨⟨hi.order, hi.two, hi.context⟩, ?_, ?_⟩
      · exact ⟨fun _ _ _ => Iff.rfl, fun _ _ => rfl, fun c' hc => Function.update_of_ne hc _ _,
          fun _ _ => rfl⟩
      · exact scan_ok hl ⟨ho.holds, by simpa using hr, by simp, by simp⟩

theorem chosen_ok {boot : C} {s : Kmem C} (ho : Own c [h] [h] none s) :
    LockOk c (Smp.body boot other c (.chosen (some h))) s := by
  rw [Smp.body]
  refine .read ho fun s ho => ?_
  split
  case isFalse hr => exact (hr (ho.runnable h (by simp)).2).elim
  refine .modify (Own.stable c [h] [h] none) ho fun s hi ho => ⟨⟨hi.order, hi.two, hi.context⟩, ?_, ?_⟩
  · refine ⟨fun _ _ _ => Iff.rfl, fun _ _ => rfl, fun _ _ => rfl, fun i hne => ?_⟩
    have hih : i ≠ h := fun he => hne (he ▸ (ho.holds h).2 (by simp))
    rw [Kmem.setProc_of_ne _ hih]
  have hst : lockContract.Stable c fun s => s.Holds c [h] := by
    rintro s s' ho ⟨_, _, c', hc, hg⟩ i
    exact (hg.lock i c fun he => hc he.symm).trans (ho i)
  refine .act hst ho.holds fun s s' hi ho hf => ?_
  injection hf with hf
  subst hf
  refine ⟨⟨hi.order, hi.two, hi.context⟩, ⟨fun _ _ _ => Iff.rfl, fun c' hc =>
    Function.update_of_ne hc _ _, fun _ _ => rfl, fun _ _ => rfl⟩, ?_⟩
  have hentry := hi.context h
  have hown : Own c [h] [] (some h) { s with
      stack := Function.update s.stack c (some h),
      saved := Function.update s.saved c (.back h) } :=
    ⟨ho, by simp, by simp, by simp⟩
  show lockContract.pre c (s.context h) _
  generalize s.context h = l at hentry ⊢
  cases l with
  | scan l => exact hentry.elim
  | chosen h => exact hentry.elim
  | back h => exact hentry.elim
  | point q r => exact hentry.elim
  | forkret q => exact (show q = h from hentry) ▸ hown
  | yielded q r => exact (show q = h from hentry) ▸ hown
  | slept q r => exact (show q = h from hentry) ▸ hown
  | dead q => exact (show q = h from hentry) ▸ hown

/-- The schedulers keep the lock contract, together with any code of the processes that holds one
process lock at a time. -/
theorem body_sound {boot : C} {other : C → Label → Code C} (h : ModestKernel other) :
    lockContract.Sound (fun _ _ _ => True) (Smp.body boot other) := by
  refine ⟨LockGuar.refl, fun c l => ?_, fun _ _ _ _ _ => trivial, fun c l s _ ho _ => ?_⟩
  · cases l with
    | scan l => exact .and (fun _ _ hl _ => hl) (Own.stable c [] [] none)
    | chosen h => exact Own.stable c h.toList h.toList none
    | back h => exact Own.stable c [h] [] (some h)
    | point p q => exact Own.stable c [] [] (some p)
    | forkret p => exact Own.stable c [p] [] (some p)
    | yielded p q => exact Own.stable c [p] [] (some p)
    | slept p q => exact Own.stable c [p] [] (some p)
    | dead p => exact Own.stable c [p] [] (some p)
  · cases l with
    | scan l =>
      obtain ⟨hl, ho⟩ := ho
      refine .pick (Own.stable c [] [] none) ho fun s w _ ho => ?_
      split
      · split
        · exact LockOk.clockintr ho fun s ho => ⟨hl, ho⟩
        · exact ⟨hl, ho⟩
      · exact scanFirst_ok hl ho
    | chosen h =>
      cases h with
      | none => exact ⟨slots_sorted, ho⟩
      | some h => exact chosen_ok ho
    | back h =>
      refine .modify (Own.stable c [h] [] (some h)) ho fun s hi ho =>
        ⟨⟨hi.order, hi.two, hi.context⟩, ?_, ?_⟩
      · exact ⟨fun _ _ _ => Iff.rfl, fun _ _ => rfl, fun c' hc => Function.update_of_ne hc _ _,
          fun _ _ => rfl⟩
      · have hown : Own c [h] [] none { s with
            cpu := Function.update s.cpu c none, saw := Function.update s.saw c false } :=
          ⟨ho.holds, by simp, by simp, by simp⟩
        exact LockOk.release [] hown (by simp) (by simp) fun s ho => ⟨slots_sorted, ho⟩
    | point p q => exact (h.point c p q).ok ho
    | forkret p => exact (h.entry c p (.forkret p) rfl).ok ho
    | yielded p q => exact (h.entry c p (.yielded p q) rfl).ok ho
    | slept p q => exact (h.entry c p (.slept p q) rfl).ok ho
    | dead p => exact (h.entry c p (.dead p) rfl).ok ho

/-- The CPUs that scan the table and run processes which hold one process lock at a time do not wait
for each other in a circle, a CPU holds two process locks at most, and at the end of a scan it holds
that of its choice; there is none only if the scan has seen no runnable process. -/
theorem scans_take_turns {boot : C} {other : C → Label → Code C} (h : ModestKernel other)
    (hx : Reach (Smp.body boot other) (Smp.start C) x) :
    (∀ c, ¬ Relation.TransGen (Waits x.mem.wants fun i => x.mem.lock (.proc i)) c c) ∧
    (∀ c, ∃ i j, ∀ p, x.mem.lock (.proc p) = some c → p = i ∨ p = j) ∧
    (∀ c high_pri, x.code c = .goto (.chosen high_pri) →
      (∀ p, x.mem.lock (.proc p) = some c ↔ high_pri = some p) ∧
      (high_pri = none ↔ x.mem.saw c = false)) ∧
    ∀ c l p, x.code c = .goto (.scan l) → x.mem.lock (.proc p) ≠ some c := by
  have hk := start_kept.reach (body_sound h) hx
  refine ⟨fun c => Waits.acyclic fun c i j hi hj => hk.inv.order c i j (Kmem.wants_eq hi) hj,
    hk.inv.two, fun c q hq => ?_, fun c l p hl => ?_⟩
  · have ho : Own c q.toList q.toList none x.mem := by
      have := hk.ok c
      rwa [hq] at this
    refine ⟨fun p => (ho.holds p).trans (by simp), ?_⟩
    rw [ho.saw rfl]
    cases q <;> simp
  · have ho : l.Pairwise (· < ·) ∧ Own c [] [] none x.mem := by
      have := hk.ok c
      rwa [hl] at this
    simp [ho.2.holds p]

/-- The first CPU has found a process, and the second spins on its lock. -/
theorem scans_take_turns_two : ∃ x : Threads (Fin 8) (Kmem (Fin 8)) Input Label,
    x.mem.lock (.proc Smp.first) = some 0 ∧ x.mem.wants 1 = some Smp.first ∧
    ¬ Relation.TransGen (Waits x.mem.wants fun i => x.mem.lock (.proc i)) 1 1 := by
  let steps : List (Fin 8 × Input) := List.replicate 7 (0, .go) ++ List.replicate 4 (1, .go)
  have hrun : ((Smp.start (Fin 8)).run (Smp.body 0 (Smp.process 0)) steps).map
      (fun x => (x.mem.lock (.proc Smp.first), x.mem.wants 1)) = some (some 0, some Smp.first) := rfl
  obtain ⟨x, hx, he⟩ := Option.map_eq_some_iff.1 hrun
  exact ⟨x, congrArg Prod.fst he, congrArg Prod.snd he,
    (scans_take_turns (Modest.process 0) (.of_run hx)).1 1⟩

end PbsCow

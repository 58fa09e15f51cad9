import PbsCow.KernelSteps

namespace PbsCow
set_option autoImplicit true

variable {C : Type}

/-- A step that changes nothing that matters. -/
theorem KernelInv.quiet {s s' : Kmem C} (hi : KernelInv s) (h : SlotStep Smp.first s s')
    (hs : SameSlot s s' Smp.first) : KernelInv s' ∧ KernelGuar c s s' :=
  h.quiet hs hi

theorem KernelInv.spin {s : Kmem C} (hi : KernelInv s) (c : C) (f : C → Option Lock) :
    KernelInv { s with spin := f } ∧ KernelGuar c s { s with spin := f } :=
  hi.quiet ⟨⟨rfl, rfl, rfl, rfl, rfl, rfl, rfl, rfl⟩, rfl, rfl, rfl, fun _ _ => rfl, fun _ _ => rfl,
    fun _ _ => rfl, fun _ _ => rfl⟩ ⟨rfl, rfl, rfl, fun _ => ⟨rfl, rfl, rfl, rfl, rfl⟩, rfl, rfl, rfl⟩

/-- A slot that `allocproc` is setting up is locked. -/
theorem KernelInv.not_used {s : Kmem C} (hi : KernelInv s) (h : s.lock (.proc i) = none) :
    (s.proc i).state ≠ .USED := by
  intro hu
  obtain ⟨c, hc, _⟩ := (hi.fine i).used hu
  rw [h] at hc
  cases hc

/-- The lock `x` is free again. -/
abbrev Kmem.drop (s : Kmem C) (x : Lock) : Kmem C :=
  { s with lock := Function.update s.lock x none }

theorem KernelInv.drop {s : Kmem C} (hi : KernelInv s) (hx : s.lock x = some c)
    (hp : ∀ i, x = .proc i → (s.cpu c = some i → (s.proc i).state = .RUNNING) ∧
      (s.proc i).state ≠ .USED ∧
      (s.cpu c = some i → (s.proc i).state ≠ .SLEEPING → s.asleep i = none))
    (hm : x = .wait → s.NoMiss) (hw : ∀ n, x = .obj n → s.woken n = true → s.NoSleeper n) :
    KernelInv (s.drop x) ∧ KernelGuar c s (s.drop x) := by
  have hkeep {k : Lock} {c' : C} (hk : s.lock k = some c') (hne : k ≠ x) :
      (s.drop x).lock k = some c' := owner_drop.2 ⟨hk, hne⟩
  have hfree {k : Lock} (hk : (s.drop x).lock k = none) : s.lock k = none ∨ k = x := by
    by_cases hkx : k = x
    · exact .inr hkx
    · left
      simpa [Kmem.drop, hkx] using hk
  refine ⟨⟨fun i => ?_, hi.stack, hi.one, hi.uids, hi.init, hi.exits, hi.exit_once, hi.reaps,
    hi.reap_once, fun hl => ?_, fun n hl hn => ?_, hi.cond⟩, ?_⟩
  · have hf := hi.fine i
    refine ⟨hf.running, fun c' hc => ?_, fun chan ha => ?_, hf.sleeping, hf.unused, fun hu => ?_,
      hf.entry, hf.parent, hf.zombie, hf.exited, hf.reaped, hf.uid⟩
    · by_cases hix : Lock.proc i = x
      · rcases hf.cpu c' hc with h | h
        · exact .inl h
        · rw [hix, hx] at h
          injection h with h
          subst h
          exact .inl ((hp i hix.symm).1 hc)
      · exact (hf.cpu c' hc).imp_right fun h => hkeep h hix
    · by_cases hix : Lock.proc i = x
      · rcases hf.asleep chan ha with h | ⟨c', hl, hc⟩
        · exact .inl h
        · rw [hix, hx] at hl
          injection hl with hl
          subst hl
          left
          by_cases hs : (s.proc i).state = .SLEEPING
          · have he := (hf.sleeping hs).symm.trans ha
            injection he with he
            exact ⟨hs, he⟩
          · have ha : s.asleep i = some chan := ha
            rw [(hp i hix.symm).2.2 hc hs] at ha
            cases ha
      · rcases hf.asleep chan ha with h | ⟨c', hl, hc⟩
        · exact .inl h
        · exact .inr ⟨c', hkeep hl hix, hc⟩
    · by_cases hix : Lock.proc i = x
      · exact ((hp i hix.symm).2.1 hu).elim
      · obtain ⟨c', hl, hpar⟩ := hf.used hu
        exact ⟨c', hkeep hl hix, hpar⟩
  · rcases hfree hl with h | h
    · exact hi.noMiss h
    · exact hm h.symm
  · rcases hfree hl with h | h
    · exact hi.noSleeper n h hn
    · exact hw n h.symm hn
  · refine ⟨fun _ _ => ⟨rfl, rfl⟩, fun k c' hc => ?_, fun _ _ => ⟨rfl, rfl⟩, fun _ _ h => ⟨h, rfl⟩,
      fun _ _ h => h, fun _ _ => .inl rfl, fun _ _ _ h => h, fun _ _ => ⟨rfl, rfl⟩⟩
    rw [owner_drop]
    refine ⟨fun h => h.1, fun h => ⟨h, ?_⟩⟩
    rintro rfl
    rw [hx] at h
    injection h with h
    exact hc h.symm

theorem At.drop {s : Kmem C} (h : At c me l s) (hl : ∀ k, k ∈ l' ↔ k ∈ l ∧ k ≠ x) :
    At c me l' (s.drop x) := by
  refine ⟨h.stack, h.cpu, h.run, fun k => ?_⟩
  rw [owner_drop, h.holds k, hl k]

/-- The locks that are left when the last one is dropped. -/
theorem mem_drop_head {x : Lock} (hx : x ∉ l) (k : Lock) : k ∈ l ↔ k ∈ x :: l ∧ k ≠ x := by
  rw [List.mem_cons]
  refine ⟨fun hk => ⟨.inr hk, ?_⟩, fun hk => hk.1.resolve_left hk.2⟩
  rintro rfl
  exact hx hk

/-- What CPU `c` can rely on while it holds the locks in `l`. -/
structure Steady (c : C) (me : Option Slot) (l : List Lock) (Q : Kmem C → Prop) : Prop where
  stable : ∀ l', l ⊆ l' → kernelContract.Stable c fun s => At c me l' s ∧ Q s
  lock : ∀ s f g, Q s → Q { s with lock := f, spin := g }

theorem Steady.true (c : C) (me : Option Slot) (l : List Lock) : Steady c me l fun _ => True :=
  ⟨fun l' _ => .and (At.stable c me l') fun _ _ _ _ => trivial, fun _ _ _ _ => trivial⟩

theorem Steady.mono (h : Steady c me l Q) (hl : l ⊆ l') : Steady c me l' Q :=
  ⟨fun l'' hl' => h.stable l'' fun _ hk => hl' (hl hk), h.lock⟩

theorem Steady.and (h : Steady c me l Q) (h' : Steady c me l R) :
    Steady c me l fun s => Q s ∧ R s := by
  refine ⟨fun l' hl s s' hs hr => ?_, fun s f g hs => ⟨h.lock s f g hs.1, h'.lock s f g hs.2⟩⟩
  obtain ⟨ha, hq⟩ := h.stable l' hl s s' ⟨hs.1, hs.2.1⟩ hr
  exact ⟨ha, hq, (h'.stable l' hl s s' ⟨hs.1, hs.2.2⟩ hr).2⟩

/-- The holder of a slot's lock can rely on its state. -/
theorem Steady.state (hi : .proc i ∈ l) (P : ProcState → Prop) :
    Steady (C := C) c me l fun s => P (s.proc i).state := by
  refine ⟨fun l' hl s s' hs hr => ⟨At.stable c me l' s s' hs.1 hr, ?_⟩, fun _ _ _ h => h⟩
  obtain ⟨_, _, c', hc, hg⟩ := hr
  rw [(hg.slot i (Kmem.not_held ((hs.1.holds _).2 (hl hi)) hc)).1]
  exact hs.2

theorem At.slotStep {s s' : Kmem C} (h : At c me l s) (hs : SlotStep i s s')
    (hr : me = some i → (s'.proc i).state = .RUNNING ∧ s'.asleep i = none) : At c me l s' := by
  refine ⟨by rw [hs.stack]; exact h.stack, by rw [hs.cpu]; exact h.cpu, fun p hp => ?_,
    fun k => by rw [hs.lock]; exact h.holds k⟩
  by_cases hpi : p = i
  · subst hpi
    exact hr hp
  · rw [hs.proc p hpi, hs.asleep p hpi]
    exact h.run p hp

theorem At.quiet {s s' : Kmem C} (h : At c me l s) (hs : SlotStep i s s') (hi : SameSlot s s' i) :
    At c me l s' := by
  refine h.slotStep hs fun hme => ?_
  rw [hi.state, hi.asleep]
  exact h.run i hme

theorem KernelOk.modify {s : Kmem C} {f : Kmem C → Kmem C} (hQ : Steady c me l Q) (ha : At c me l s)
    (hq : Q s) (h : ∀ s, KernelInv s → At c me l s → Q s →
      (KernelInv (f s) ∧ KernelGuar c s (f s)) ∧ KernelOk c k (f s)) : KernelOk c (.modify f k) s := by
  refine Contract.Ok.modify (hQ.stable l fun _ h => h) ⟨ha, hq⟩ fun s hi hs => ?_
  obtain ⟨⟨hi', hg⟩, hk⟩ := h s hi hs.1 hs.2
  exact ⟨hi', hg, hk⟩

theorem KernelOk.read {s : Kmem C} {k : Kmem C → Code C} (hQ : Steady c me l Q) (ha : At c me l s)
    (hq : Q s) (h : ∀ s, KernelInv s → At c me l s → Q s → KernelOk c (k s) s) :
    KernelOk c (.read k) s :=
  Contract.Ok.read (KernelGuar.refl c) (hQ.stable l fun _ h => h) ⟨ha, hq⟩
    fun s hi hs => h s hi hs.1 hs.2

theorem KernelOk.pick {s : Kmem C} {k : Input → Code C} (hQ : Steady c me l Q) (ha : At c me l s)
    (hq : Q s) (h : ∀ s w, At c me l s → Q s → KernelOk c (k w) s) : KernelOk c (.pick k) s :=
  Contract.Ok.pick (hQ.stable l fun _ h => h) ⟨ha, hq⟩ fun s w _ hs => h s w hs.1 hs.2

variable [DecidableEq C]

/-- CPU `c` gets the lock `x`. -/
abbrev Kmem.take (s : Kmem C) (c : C) (x : Lock) : Kmem C := { s with
  lock := Function.update s.lock x (some c), spin := Function.update s.spin c none }

theorem KernelInv.take {s : Kmem C} (hi : KernelInv s) (hx : s.lock x = none) (c : C) :
    KernelInv (s.take c x) ∧ KernelGuar c s (s.take c x) := by
  have hkeep {k : Lock} {c' : C} (hk : s.lock k = some c') : (s.take c x).lock k = some c' :=
    (owner_take hx).2 (.inl hk)
  have hfree {k : Lock} (hk : (s.take c x).lock k = none) : s.lock k = none := by
    cases hs : s.lock k with
    | none => rfl
    | some c' =>
      rw [hkeep hs] at hk
      cases hk
  refine ⟨⟨fun i => ?_, hi.stack, hi.one, hi.uids, hi.init, hi.exits, hi.exit_once, hi.reaps,
    hi.reap_once, fun hl => hi.noMiss (hfree hl), fun n hl hw => hi.noSleeper n (hfree hl) hw,
    hi.cond⟩, ?_⟩
  · have hf := hi.fine i
    refine ⟨hf.running, fun c' hc => ?_, fun chan ha => ?_, hf.sleeping, hf.unused, fun hu => ?_,
      hf.entry, hf.parent, hf.zombie, hf.exited, hf.reaped, hf.uid⟩
    · exact (hf.cpu c' hc).imp_right hkeep
    · rcases hf.asleep chan ha with h | ⟨c', hl, hc⟩
      · exact .inl h
      · exact .inr ⟨c', hkeep hl, hc⟩
    · obtain ⟨c', hl, hp⟩ := hf.used hu
      exact ⟨c', hkeep hl, hp⟩
  · refine ⟨fun _ _ => ⟨rfl, rfl⟩, fun k c' hc => ?_, fun _ _ => ⟨rfl, rfl⟩, fun _ _ h => ⟨h, rfl⟩,
      fun _ _ h => h, fun _ _ => .inl rfl, fun _ _ _ h => h, fun _ _ => ⟨rfl, rfl⟩⟩
    rw [owner_take hx]
    simp [hc]

theorem At.take {s : Kmem C} (h : At c me l s) (hx : s.lock x = none) :
    At c me (x :: l) (s.take c x) := by
  refine ⟨h.stack, h.cpu, h.run, fun k => ?_⟩
  rw [owner_take hx, h.holds k, List.mem_cons]
  simp [or_comm]

theorem KernelOk.acquire {s : Kmem C} (hQ : Steady c me l Q) (ha : At c me l s) (hq : Q s)
    (hk : ∀ s, KernelInv s → s.lock x = none ∧ x ∉ l → Q s → At c me (x :: l) (s.take c x) →
      KernelOk c k (s.take c x)) : KernelOk c (Smp.acquire c x k) s := by
  refine .modify hQ ha hq fun s hi ha hq => ⟨hi.spin c _, ?_⟩
  refine .act (hQ.stable l fun _ h => h) ⟨⟨ha.stack, ha.cpu, ha.run, ha.holds⟩,
    hQ.lock s s.lock _ hq⟩ fun s s' hi hs hf => ?_
  obtain ⟨ha, hq⟩ := hs
  split at hf
  case isFalse => cases hf
  case isTrue hfree =>
    injection hf with hf
    subst hf
    obtain ⟨hi', hg⟩ := hi.take hfree c
    refine ⟨hi', hg, hk s hi ⟨hfree, fun hx => ?_⟩ hq (ha.take hfree)⟩
    rw [(ha.holds x).2 hx] at hfree
    cases hfree

theorem KernelOk.release {s : Kmem C} (l' : List Lock) (hQ : Steady c me l Q) (ha : At c me l s)
    (hq : Q s) (hl : ∀ k, k ∈ l' ↔ k ∈ l ∧ k ≠ x)
    (hd : ∀ s, KernelInv s → At c me l s → Q s →
      (∀ i, x = .proc i → (s.proc i).state ≠ .USED) ∧ (x = .wait → s.NoMiss) ∧
      ∀ n, x = .obj n → s.woken n = true → s.NoSleeper n)
    (hk : ∀ s, At c me l' s → Q s → KernelOk c k s) : KernelOk c (Smp.release c x k) s := by
  refine .act (hQ.stable l fun _ h => h) ⟨ha, hq⟩ fun s s' hi hs hf => ?_
  obtain ⟨ha, hq⟩ := hs
  rw [Kmem.release] at hf
  split at hf
  case isFalse => cases hf
  case isTrue hx =>
    injection hf with hf
    subst hf
    obtain ⟨hu, hm, hw⟩ := hd s hi ha hq
    obtain ⟨hi', hg⟩ := hi.drop hx (fun i hix => ⟨fun hc => (ha.run i (ha.cpu ▸ hc)).1, hu i hix,
      fun hc _ => (ha.run i (ha.cpu ▸ hc)).2⟩) hm hw
    exact ⟨hi', hg, hk _ (ha.drop hl) (hQ.lock s _ s.spin hq)⟩

/-- A loop that visits slot after slot; `Q` tells what is known when the slots in its list are left. -/
theorem KernelOk.visit {s : Kmem C} {f : Slot → Kmem C → Kmem C} {Q : List Slot → Kmem C → Prop}
    {R : Slot → Prop} (hQ : ∀ r, Steady c me l (Q r)) (hl : ∀ i, .proc i ∉ l) (hr : ∀ i ∈ r, R i)
    (hf : ∀ i r s, R i → KernelInv s → At c me (.proc i :: l) s → (s.proc i).state ≠ .USED →
      Q (i :: r) s → (KernelInv (f i s) ∧ KernelGuar c s (f i s)) ∧
        At c me (.proc i :: l) (f i s) ∧ ((f i s).proc i).state ≠ .USED ∧ Q r (f i s))
    (ha : At c me l s) (hq : Q r s) (hk : ∀ s, At c me l s → Q [] s → KernelOk c k s) :
    KernelOk c (Smp.visit c f k r) s := by
  induction r generalizing s with
  | nil => exact hk s ha hq
  | cons i r ih =>
    have hlock : .proc i ∈ Lock.proc i :: l := by simp
    have hQ' (r : List Slot) : Steady c me (.proc i :: l) fun s =>
        Q r s ∧ (s.proc i).state ≠ .USED :=
      .and ((hQ r).mono (by simp)) (.state hlock fun st => st ≠ .USED)
    refine .acquire (hQ (i :: r)) ha hq fun s hi hfree hq ha => ?_
    refine .modify (hQ' (i :: r)) ha ⟨(hQ _).lock s _ _ hq, hi.not_used hfree.1⟩ fun s hi ha hs => ?_
    obtain ⟨hstep, ha', hu', hq'⟩ := hf i r s (hr i (by simp)) hi ha hs.2 hs.1
    refine ⟨hstep, .release l (hQ' r) ha' ⟨hq', hu'⟩ (mem_drop_head (hl i)) (fun s _ _ hs => ?_)
      fun s ha hs => ih (fun j hj => hr j (by simp [hj])) ha hs.1⟩
    refine ⟨fun j hj => ?_, by simp, by simp⟩
    injection hj with hj
    exact hj ▸ hs.2

end PbsCow

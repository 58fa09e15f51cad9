import PbsCow.ScanLocks

namespace PbsCow
set_option autoImplicit true

variable {C : Type}

theorem Local.of_state {s s' : Kmem C} (hl : s'.lock = s.lock) (hs : s'.spin = s.spin)
    (hv : s'.saved = s.saved) (hw : s'.saw = s.saw) (hc : s'.context = s.context)
    (hp : ∀ j, q ≠ some j → (s'.proc j).state = (s.proc j).state) : Local c q s s' :=
  ⟨fun _ => by rw [hl], fun _ _ => by rw [hs], fun _ h => by rwa [hs] at h, hv, hw,
    fun _ => .inl (by rw [hc]), hp⟩

/-- A write to a slot under its lock. -/
theorem Local.slot {s s' : Kmem C} (hl : s'.lock = s.lock) (hs : s'.spin = s.spin)
    (hv : s'.saved = s.saved) (hw : s'.saw = s.saw) (hc : s'.context = s.context)
    (hp : ∀ j, j ≠ i → s'.proc j = s.proc j) : Local c (some i) s s' :=
  .of_state hl hs hv hw hc fun j hj => by rw [hp j fun he => hj (he ▸ rfl)]

theorem Local.refl (c : C) (q : Option Slot) (s : Kmem C) : Local c q s s :=
  .of_state rfl rfl rfl rfl rfl fun _ _ => rfl

theorem Local.setProc (c : C) (s : Kmem C) (i : Slot) (f : Proc → Proc) :
    Local c (some i) s (s.setProc i f) :=
  .slot rfl rfl rfl rfl rfl fun _ hj => s.setProc_of_ne hj f

theorem Local.wake (c : C) (chan : Chan) (i : Slot) (s : Kmem C) :
    Local c (some i) s (Smp.wake chan i s) := by
  rw [Smp.wake]
  split
  · exact .slot rfl rfl rfl rfl rfl fun j hj => Kmem.setProc_of_ne _ hj _
  · exact .refl c _ s

theorem Local.charge (c : C) (i : Slot) (s : Kmem C) : Local c (some i) s (Smp.charge i s) :=
  .slot rfl rfl rfl rfl rfl fun _ hj => Kmem.setProc_of_ne _ hj _

theorem Local.setKilled (c : C) (i : Slot) (s : Kmem C) :
    Local c (some i) s (Smp.setKilled i s) := by
  rw [Smp.setKilled]
  split
  · exact .slot rfl rfl rfl rfl rfl fun j hj => Kmem.setProc_of_ne _ hj _
  · exact .setProc c s i _

theorem Local.initSlot (c : C) (i : Slot) (s : Kmem C) : Local c (some i) s (Smp.initSlot i s) := by
  have hcontext : (Smp.initSlot i s).context = Function.update s.context i (.forkret i) := rfl
  refine ⟨fun _ => rfl, fun _ _ => rfl, fun _ h => h, rfl, rfl, fun j => ?_, fun j hj => ?_⟩
  · rw [hcontext]
    by_cases hji : j = i
    · subst hji
      exact .inr (by simp [Label.Entry])
    · exact .inl (by simp [hji])
  · exact congrArg Proc.state (Kmem.setProc_of_ne _ (fun he => hj (by rw [he])) _)

/-- A write to another field of a slot needs no lock. -/
theorem Local.write {s : Kmem C} (hf : (f (s.proc i)).state = (s.proc i).state) :
    Local c q s (s.setProc i f) := by
  refine .of_state rfl rfl rfl rfl rfl fun j _ => ?_
  by_cases hji : j = i
  · subst hji
    rw [s.setProc_self, hf]
  · rw [s.setProc_of_ne hji]

variable [DecidableEq C]

theorem Local.startSpin (s : Kmem C) (hl : ∀ i, lk ≠ .proc i) :
    Local c q s { s with spin := Function.update s.spin c (some lk) } := by
  refine ⟨fun _ => rfl, fun c' hc => Function.update_of_ne hc _ _, fun i h => ?_, rfl, rfl,
    fun _ => .inl rfl, fun _ _ => rfl⟩
  simp only [Function.update_self, Option.some.injEq] at h
  exact (hl i h).elim

theorem Local.takeLock (s : Kmem C) (hl : ∀ i, lk ≠ .proc i) :
    Local c q s { s with
      lock := Function.update s.lock lk (some c), spin := Function.update s.spin c none } := by
  refine ⟨fun i => Function.update_of_ne (fun he => hl i he.symm) _ _,
    fun c' hc => Function.update_of_ne hc _ _, fun i h => ?_, rfl, rfl, fun _ => .inl rfl,
    fun _ _ => rfl⟩
  simp at h

theorem Local.dropLock {s s' : Kmem C} (hl : ∀ i, lk ≠ .proc i) (h : s.release c lk = some s') :
    Local c q s s' := by
  rw [Kmem.release] at h
  split at h
  · injection h with h
    subst h
    exact ⟨fun i => Function.update_of_ne (fun he => hl i he.symm) _ _, fun _ _ => rfl,
      fun _ h => h, rfl, rfl, fun _ => .inl rfl, fun _ _ => rfl⟩
  · cases h

namespace Modest

theorem modify {f : Kmem C → Kmem C} (hf : ∀ s, Local c q s (f s)) (hk : Modest c p q k) :
    Modest c p q (.modify f k) := by
  refine .act (fun s s' h => ?_) fun _ => hk
  injection h with h
  exact h ▸ hf s

theorem read {k : Kmem C → Code C} (hk : ∀ s, Modest c p q (k s)) : Modest c p q (.read k) := by
  refine .act (fun s s' h => ?_) hk
  injection h with h
  exact h ▸ .refl c q s

theorem acquireOther {c : C} (hl : ∀ i, lk ≠ .proc i) (hk : Modest c p q k) :
    Modest c p q (Smp.acquire c lk k) := by
  refine .modify (fun s => .startSpin s hl) (.act (fun s s' h => ?_) fun _ => hk)
  split at h
  · injection h with h
    exact h ▸ .takeLock s hl
  · cases h

theorem releaseOther {c : C} (hl : ∀ i, lk ≠ .proc i) (hk : Modest c p q k) :
    Modest c p q (Smp.release c lk k) :=
  .act (fun _ _ h => .dropLock hl h) fun _ => hk

theorem visit {f : Slot → Kmem C → Kmem C} (hf : ∀ i s, Local c (some i) s (f i s))
    (hk : Modest c p none k) (l : List Slot) : Modest c p none (Smp.visit c f k l) := by
  induction l with
  | nil => exact hk
  | cons i l ih => exact .acquire (.modify (hf i) (.release ih))

theorem wakeup {c : C} (me : Option Slot) (chan : Chan) (hk : Modest c p none k) :
    Modest c p none (Smp.wakeup c me chan k) :=
  visit (Local.wake c chan) hk _

theorem clockintr {c : C} (me : Option Slot) (hk : Modest c p none k) :
    Modest c p none (Smp.clockintr c me k) := by
  have hticks (i : Slot) : Lock.ticks ≠ .proc i := by simp
  refine acquireOther hticks (.modify (fun s => .of_state rfl rfl rfl rfl rfl fun _ _ => rfl) ?_)
  refine visit (Local.charge c) (visit (fun i s => .setProc c s i _) ?_ _) _
  exact wakeup me .ticks (releaseOther hticks hk)

theorem yield (c : C) (p : Slot) (q : Point) : Modest c p none (Smp.yield c p q) :=
  .acquire (.modify (fun s => .setProc c s p _) (.sched rfl))

theorem sleep {c : C} (hl : ∀ i, lk ≠ .proc i) : Modest c p none (Smp.sleep c p chan lk q) := by
  refine .acquire (.act (fun s s' h => ?_) fun _ => .modify (fun s => .setProc c s p _) (.sched rfl))
  obtain ⟨s₁, h₁, rfl⟩ := Option.map_eq_some_iff.1 h
  have hd := Local.dropLock (q := some p) hl h₁
  exact ⟨hd.lock, hd.spin, hd.own, hd.saved, hd.saw, hd.context, hd.state⟩

theorem killed {k : Bool → Code C} (hk : ∀ b, Modest c p none (k b)) :
    Modest c p none (Smp.killed c p k) :=
  .acquire (.read fun _ => .release (hk _))

theorem reparent {c : C} (hk : Modest c p none k) (l : List Slot) :
    Modest c p none (Smp.reparent c p k l) := by
  induction l with
  | nil => exact hk
  | cons pp l ih =>
    refine .read fun s => ?_
    split
    · exact .modify (fun s => .write rfl) (.read fun s => wakeup _ _ ih)
    · exact ih

theorem exit (c : C) (p : Slot) (status : BitVec 32) : Modest c p none (Smp.exit c p status) := by
  refine .read fun s => ?_
  split
  · exact .ret
  refine acquireOther (by simp) (reparent (.read fun s => wakeup _ _ (.acquire ?_)) _)
  refine .modify (fun s => .slot rfl rfl rfl rfl rfl fun j hj => ?_) (releaseOther (by simp) (.sched rfl))
  rw [Smp.setZombie, Kmem.setProc_of_ne _ hj]

theorem waitScan (c : C) (p : Slot) (x : Bool) (addr : Nat) (l : List Slot) (havekids : Bool) :
    Modest c p none (Smp.waitScan c p x addr l havekids) := by
  have hover : Modest c p none (Smp.release c .wait (.goto (.point p .user))) :=
    releaseOther (by simp) .goto
  induction l generalizing havekids with
  | nil =>
    have hagain (k : Bool) : Modest c p none (if k then Smp.release c .wait (.goto (.point p .user))
        else Smp.sleep c p (.proc (some p)) .wait (.wait x addr)) := by
      split
      · exact hover
      · exact sleep (by simp)
    rw [Smp.waitScan]
    split
    · split
      · exact .read fun s => hagain _
      · exact killed hagain
    · exact hover
  | cons pp l ih =>
    refine .read fun s => ?_
    split
    case isFalse => exact ih havekids
    refine .acquire (.read fun s => ?_)
    split
    case isFalse => exact .release (ih true)
    have hreap : Modest c p (some pp) (.modify (Smp.reap p x addr pp)
        (Smp.release c (.proc pp) (Smp.release c .wait (.goto (.point p .user))))) := by
      refine .modify (fun s => .slot rfl rfl rfl rfl rfl fun j hj => ?_) (.release hover)
      rw [Smp.reap, Smp.freeproc, Kmem.setProc_of_ne _ hj]
    refine .pick fun w => ?_
    split
    · split
      · exact .release hover
      · exact hreap
    · exact hreap

theorem kill (c : C) (p : Slot) (pid : Int) (l : List Slot) :
    Modest c p none (Smp.kill c p pid l) := by
  cases l with
  | nil => exact .goto
  | cons i l =>
    refine .acquire (.read fun s => ?_)
    split
    · exact .modify (Local.setKilled c i) (.release .goto)
    · exact .release .goto

theorem fork (c : C) (p : Slot) (l : List Slot) : Modest c p none (Smp.fork c p l) := by
  cases l with
  | nil => exact .goto
  | cons np l =>
    refine .acquire (.read fun s => ?_)
    split
    case isFalse => exact .release .goto
    have hfails : Modest c p (some np) (.modify (Smp.freeproc np)
        (Smp.release c (.proc np) (.goto (.point p .user)))) :=
      .modify (fun s => .setProc c s np _) (.release .goto)
    refine .modify (fun s => .slot rfl rfl rfl rfl rfl fun j hj => Kmem.setProc_of_ne _ hj _)
      (.pick fun w => ?_)
    split
    · exact hfails
    refine .modify (Local.initSlot c np) (.pick fun w => ?_)
    split
    · exact hfails
    refine .modify (fun s => .slot rfl rfl rfl rfl rfl fun j hj => Kmem.setProc_of_ne _ hj _) ?_
    exact .modify (fun s => .setProc c s np _) (.release .goto)

theorem setPriority (c : C) (p : Slot) (pid new_priority : Int) (l : List Slot) (do_yield : Bool) :
    Modest c p none (Smp.setPriority c p pid new_priority l do_yield) := by
  cases l with
  | nil =>
    rw [Smp.setPriority]
    split
    · exact yield c p .user
    · exact .goto
  | cons i l =>
    refine .acquire (.read fun s => ?_)
    split
    · exact .modify (fun s => .setProc c s i _) (.release .goto)
    · exact .release .goto

theorem sysSleep (c : C) (p : Slot) (n : BitVec 32) (ticks0 : Option (BitVec 32)) :
    Modest c p none (Smp.sysSleep c p n ticks0) := by
  have hover : Modest c p none (Smp.release c .ticks (.goto (.point p .user))) :=
    releaseOther (by simp) .goto
  refine acquireOther (by simp) (.read fun s => ?_)
  dsimp only
  split
  · refine killed fun b => ?_
    split
    · exact hover
    · exact sleep (by simp)
  · exact hover

theorem test (c : C) (p : Slot) (n : Nat) : Modest c p none (Smp.test c p n) := by
  have hover : Modest c p none (Smp.release c (.obj n) (.goto (.point p .user))) :=
    releaseOther (by simp) .goto
  refine acquireOther (by simp) (.read fun s => ?_)
  split
  · refine .pick fun w => ?_
    split
    · exact hover
    · exact .modify (fun s => .of_state rfl rfl rfl rfl rfl fun _ _ => rfl) hover
  · exact sleep (by simp)

theorem make (c : C) (p : Slot) (n : Nat) (before : Bool) :
    Modest c p none (Smp.make c p n before) := by
  have hover : Modest c p none (Smp.release c (.obj n) (.goto (.point p .user))) :=
    releaseOther (by simp) .goto
  have hset {k : Code C} (f : Kmem C → Nat → Bool) (hk : Modest c p none k) :
      Modest c p none (.modify (fun s => { s with cond := f s }) k) :=
    .modify (fun s => .of_state rfl rfl rfl rfl rfl fun _ _ => rfl) hk
  have hwoken : Modest c p none (.modify (fun s => { s with woken := Function.update s.woken n true })
      (Smp.release c (.obj n) (.goto (.point p .user)))) :=
    .modify (fun s => .of_state rfl rfl rfl rfl rfl fun _ _ => rfl) hover
  refine acquireOther (by simp) ?_
  split
  · exact hset _ (wakeup _ _ hwoken)
  · exact wakeup _ _ (hset _ hwoken)

theorem goOn (c : C) (p : Slot) (q : Point) (w : Input) : Modest c p none (Smp.goOn c p q w) := by
  cases q with
  | user =>
    cases w with
    | fault => exact .modify (fun s => .write rfl) .goto
    | go => exact .goto
    | intr => exact .goto
    | call y => exact .goto
    | fail => exact .goto
  | exit status => exact exit c p status
  | wait x addr => exact acquireOther (by simp) (waitScan c p x addr _ _)
  | kill pid l => exact kill c p pid l
  | fork l => exact fork c p l
  | setPriority pid new_priority l do_yield => exact setPriority c p pid new_priority l do_yield
  | sleep n ticks0 => exact sysSleep c p n ticks0
  | test n => exact test c p n
  | make n before => exact make c p n before

/-- The processes of the kernel hold one process lock at a time. -/
theorem process (boot : C) : ModestKernel (Smp.process boot) := by
  refine ⟨fun c p q => .pick fun w => ?_, fun c p l hl => ?_⟩
  · split
    · split
      · exact clockintr _ (yield c p q)
      · exact yield c p q
    · exact goOn c p q w
  · cases l with
    | scan l => exact hl.elim
    | chosen h => exact hl.elim
    | back h => exact hl.elim
    | point q r => exact hl.elim
    | forkret q =>
      obtain rfl : q = p := hl
      exact .release .goto
    | yielded q r =>
      obtain rfl : q = p := hl
      exact .release .goto
    | slept q r =>
      obtain rfl : q = p := hl
      exact .modify (fun s => .setProc c s q _) (.release .goto)
    | dead q => exact .ret

end Modest

end PbsCow

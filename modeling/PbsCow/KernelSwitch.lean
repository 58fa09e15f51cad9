import PbsCow.KernelActs

namespace PbsCow
set_option autoImplicit true

variable {C : Type}

/-- Process `p`, on CPU `c`, has dropped the lock of the channel on which it is about to sleep. -/
structure Drowsy (c : C) (p : Slot) (chan : Chan) (s : Kmem C) : Prop where
  stack : s.stack c = some p
  cpu : s.cpu c = some p
  state : (s.proc p).state = .RUNNING
  asleep : s.asleep p = some chan
  holds : ∀ k, s.lock k = some c ↔ k ∈ [Lock.proc p]

theorem Drowsy.stable (c : C) (p : Slot) (chan : Chan) :
    kernelContract.Stable c (Drowsy c p chan) := by
  rintro s s' h ⟨hi, _, c', hc, hg⟩
  obtain ⟨hcpu, hstack⟩ := hg.cpu c fun he => hc he.symm
  obtain ⟨hst, ha⟩ := hg.slot p (Kmem.not_held ((h.holds _).2 (by simp)) hc)
  refine ⟨hstack.trans h.stack, hcpu.trans h.cpu, hst.trans h.state, ha.trans h.asleep, fun k => ?_⟩
  exact (hg.lock k c fun he => hc he.symm).trans (h.holds k)

/-- CPU `c` has made process `h` running and is about to switch to it. -/
structure Enters (c : C) (h : Slot) (s : Kmem C) : Prop where
  cpu : s.cpu c = some h
  state : (s.proc h).state = .RUNNING
  asleep : s.asleep h = none
  holds : ∀ k, s.lock k = some c ↔ k ∈ [Lock.proc h]

theorem Enters.stable (c : C) (h : Slot) : kernelContract.Stable c (Enters c h) := by
  rintro s s' he ⟨hi, _, c', hc, hg⟩
  obtain ⟨hst, ha⟩ := hg.slot h (Kmem.not_held ((he.holds _).2 (by simp)) hc)
  refine ⟨(hg.cpu c fun he => hc he.symm).1.trans he.cpu, hst.trans he.state, ha.trans he.asleep,
    fun k => ?_⟩
  exact (hg.lock k c fun he => hc he.symm).trans (he.holds k)

/-- A running process gives up its state. -/
theorem SlotStep.leave {s s' : Kmem C} (h : SlotStep p s s') (hi : KernelInv s)
    (hcpu : s.cpu c = some p) (hr : (s.proc p).state = .RUNNING) (hl : s.lock (.proc p) = some c)
    (hst : (s'.proc p).state = .RUNNABLE ∨ (s'.proc p).state = .SLEEPING)
    (ha : ∀ chan, s'.asleep p = some chan ↔ (s'.proc p).state = .SLEEPING ∧ (s'.proc p).chan = chan)
    (ha' : ∀ chan, s'.asleep p = some chan → s.asleep p = some chan)
    (hp : (s'.proc p).parent = (s.proc p).parent) (hc : s'.context p = s.context p)
    (hk : s'.forker p = s.forker p) : KernelInv s' ∧ KernelGuar c s s' := by
  have hg : KernelGuar c s s' := by
    refine h.guar hl (fun hne => (hne hcpu).elim) (fun hz => ?_) (.inl hp) ha'
    rcases hst with hst | hst
    · rw [hst] at hz
      cases hz
    · rw [hst] at hz
      cases hz
  refine ⟨h.inv hi hg ((hi.fine p).waits h (by rw [hr]; simp) (by rw [hr]; simp) hst ?_ ha hp hc hk),
    hg⟩
  intro c' hc'
  rw [hi.one c' c p hc' hcpu]
  exact hl

/-- What a process must know when it drops the lock of the channel: then it cannot miss a wakeup. -/
structure MaySleep (p : Slot) (lk : Lock) (s : Kmem C) : Prop where
  wait : lk = .wait → s.NoMiss ∧ ∀ i, (s.proc i).state = .ZOMBIE → (s.proc i).parent ≠ some p
  obj : ∀ n, lk = .obj n → s.woken n = false

theorem MaySleep.step {s : Kmem C} (h : MaySleep p lk s) (hi : KernelInv s)
    (ha : At c (some p) [.proc p, lk] s) (hk : chan.lk = lk) (hlk : ∀ i, lk ≠ .proc i) :
    KernelInv { s.drop lk with asleep := Function.update s.asleep p (some chan) } ∧
    KernelGuar c s { s.drop lk with asleep := Function.update s.asleep p (some chan) } := by
  have hx : s.lock lk = some c := (ha.holds lk).2 (by simp)
  have hproc (i : Slot) : (s.drop lk).lock (.proc i) = s.lock (.proc i) :=
    Function.update_of_ne (fun he => hlk i he.symm) _ _
  have hfree (k : Lock) (hk : (s.drop lk).lock k = none) : s.lock k = none ∨ k = lk := by
    by_cases hkx : k = lk
    · exact .inr hkx
    · left
      simpa [Kmem.drop, hkx] using hk
  have hasl (i : Slot) (ch : Chan) (hi : Function.update s.asleep p (some chan) i = some ch) :
      s.asleep i = some ch ∨ i = p ∧ ch = chan := by
    by_cases hip : i = p
    · subst hip
      simp only [Function.update_self, Option.some.injEq] at hi
      exact .inr ⟨rfl, hi.symm⟩
    · rw [Function.update_of_ne hip] at hi
      exact .inl hi
  obtain ⟨hr, hn⟩ := ha.run p rfl
  refine ⟨⟨fun i => ?_, hi.stack, hi.one, hi.uids, hi.init, hi.exits, hi.exit_once, hi.reaps,
    hi.reap_once, fun hl q i hq hz hpar => ?_, fun n hl hw q hq => ?_, hi.cond⟩, ?_⟩
  · have hf := hi.fine i
    refine ⟨hf.running, fun c' hc => by rw [hproc]; exact hf.cpu c' hc, fun ch hch => ?_, fun hs => ?_,
      hf.unused, fun hu => by rw [hproc]; exact hf.used hu, hf.entry, hf.parent, hf.zombie, hf.exited,
      hf.reaped, hf.uid⟩
    · rw [hproc]
      rcases hasl i ch hch with h | ⟨rfl, _⟩
      · exact hf.asleep ch h
      · exact .inr ⟨c, (ha.holds _).2 (by simp), ha.cpu⟩
    · have hip : i ≠ p := by
        rintro rfl
        have hs : (s.proc i).state = .SLEEPING := hs
        rw [hr] at hs
        cases hs
      dsimp only
      rw [Function.update_of_ne hip]
      exact hf.sleeping hs
  · rcases hasl q _ hq with hq | ⟨rfl, hch⟩
    · rcases hfree _ hl with hl | hl
      · exact hi.noMiss hl q i hq hz hpar
      · exact (h.wait hl.symm).1 q i hq hz hpar
    · have hw : lk = .wait := by
        rw [← hk, ← hch]
        rfl
      exact (h.wait hw).2 i hz hpar
  · rcases hfree _ hl with hl | hl
    · rcases hasl q _ hq with hq | ⟨_, hch⟩
      · exact hi.noSleeper n hl hw q hq
      · have hw : lk = .obj n := by
          rw [← hk, ← hch]
          rfl
        rw [hw, hl] at hx
        cases hx
    · have hw : s.woken n = true := hw
      rw [h.obj n hl.symm] at hw
      cases hw
  · refine ⟨fun _ _ => ⟨rfl, rfl⟩, fun k c' hc => ?_, fun i hl => ⟨rfl, ?_⟩, fun i hc h => ⟨h, ?_⟩,
      fun _ _ h => h, fun _ _ => .inl rfl, fun i ch hl hch => ?_, fun _ _ => ⟨rfl, rfl⟩⟩
    · dsimp only
      rw [owner_drop]
      refine ⟨fun h => h.1, fun hkc => ⟨hkc, ?_⟩⟩
      rintro rfl
      exact Kmem.not_held hx hc hkc
    · refine Function.update_of_ne ?_ _ _
      rintro rfl
      exact hl ((ha.holds _).2 (by simp))
    · refine Function.update_of_ne ?_ _ _
      rintro rfl
      exact hc ha.cpu
    · rcases hasl i ch hch with h | ⟨_, rfl⟩
      · exact h
      · rw [hk] at hl
        exact (hl hx).elim

variable [DecidableEq C]

theorem KernelOk.sched {s : Kmem C} (hl : l.Entry p) (h : Leaves c p (some p) [.proc p] s) :
    KernelOk c (Smp.sched c p l) s := by
  refine .act (Leaves.stable c p (some p) [.proc p]) h fun s s' hi h hf => ?_
  split at hf
  case isFalse => cases hf
  injection hf with hf
  subst hf
  have hback := (hi.stack c p h.stack).2
  refine ⟨⟨fun i => ?_, fun c' q hq => ?_, hi.one, hi.uids, hi.init, hi.exits, hi.exit_once, hi.reaps,
    hi.reap_once, hi.noMiss, hi.noSleeper, hi.cond⟩, ?_, ?_⟩
  · have hf := hi.fine i
    refine ⟨hf.running, hf.cpu, hf.asleep, hf.sleeping, hf.unused, hf.used, ?_, hf.parent, hf.zombie,
      hf.exited, hf.reaped, hf.uid⟩
    by_cases hip : i = p
    · subst hip
      simpa using hl
    · simpa [hip] using hf.entry
  · by_cases hc : c' = c
    · simp [hc] at hq
    · dsimp only at hq
      rw [Function.update_of_ne hc] at hq
      exact hi.stack c' q hq
  · exact ⟨fun c' hc => ⟨rfl, Function.update_of_ne hc _ _⟩, fun _ _ _ => Iff.rfl,
      fun _ _ => ⟨rfl, rfl⟩, fun _ _ h => ⟨h, rfl⟩, fun _ _ h => h, fun _ _ => .inl rfl,
      fun _ _ _ h => h, fun _ _ => ⟨rfl, rfl⟩⟩
  · rw [hback]
    exact ⟨by simp, h.cpu, h.state, h.not_used, h.asleep, h.lock, h.holds⟩

theorem KernelOk.yield {s : Kmem C} (ha : At c (some p) [] s) : KernelOk c (Smp.yield c p q) s := by
  refine .acquire (.true c _ []) ha trivial fun s hi hfree _ ha => ?_
  refine .modify (.true c _ _) ha trivial fun s hi ha _ => ?_
  obtain ⟨hr, hn⟩ := ha.run p rfl
  have hl := (ha.holds (.proc p)).2 (by simp)
  have hself := s.setProc_self p fun q => { q with state := .RUNNABLE }
  have hstep := SlotStep.setProc s p fun q => { q with state := .RUNNABLE }
  refine ⟨hstep.leave hi ha.cpu hr hl (.inl (by rw [hself])) (fun chan => ?_) (fun chan h => h)
    (by rw [hself]) rfl rfl, .sched rfl ⟨ha.stack, ha.cpu, ?_, ?_, fun _ => hn, by simp, ha.holds⟩⟩
  · rw [hself, Kmem.setProc_asleep, hn]
    simp
  · simp
  · simp

theorem KernelOk.sleep {s : Kmem C} (hk : chan.lk = lk) (hlk : ∀ i, lk ≠ .proc i)
    (hQ : Steady c (some p) [lk] Q) (ha : At c (some p) [lk] s) (hq : Q s)
    (hm : ∀ s, KernelInv s → Q s → MaySleep p lk s) :
    KernelOk c (Smp.sleep c p chan lk q) s := by
  refine .acquire hQ ha hq fun s hi hfree hq ha => ?_
  have hQ' : Steady c (some p) [.proc p, lk] Q := hQ.mono (by simp)
  refine .act (hQ'.stable _ fun _ h => h) ⟨ha, hQ.lock s _ _ hq⟩ fun s s' hi hs hf => ?_
  obtain ⟨ha, hq⟩ := hs
  obtain ⟨s₁, h₁, rfl⟩ := Option.map_eq_some_iff.1 hf
  rw [Kmem.release] at h₁
  split at h₁
  case isFalse => cases h₁
  injection h₁ with h₁
  subst h₁
  obtain ⟨hi', hg⟩ := (hm s hi hq).step hi ha hk hlk
  refine ⟨hi', hg, ?_⟩
  obtain ⟨hr, hn⟩ := ha.run p rfl
  have hd : Drowsy c p chan { s.drop lk with asleep := Function.update s.asleep p (some chan) } := by
    refine ⟨ha.stack, ha.cpu, hr, by simp, fun k => ?_⟩
    dsimp only
    rw [owner_drop, ha.holds k]
    simp only [List.mem_cons, List.not_mem_nil, or_false]
    refine ⟨fun h => h.1.resolve_right h.2, fun h => ⟨.inl h, ?_⟩⟩
    rw [h]
    exact fun he => hlk p he.symm
  refine Contract.Ok.modify (Drowsy.stable c p chan) hd fun s hi hd => ?_
  have hself := s.setProc_self p fun q => { q with chan := chan, state := .SLEEPING }
  have hstep := SlotStep.setProc s p fun q => { q with chan := chan, state := .SLEEPING }
  have hl := (hd.holds (.proc p)).2 (by simp)
  obtain ⟨hi', hg⟩ := hstep.leave hi hd.cpu hd.state hl (.inr (by rw [hself]))
    (fun ch => by simp [hd.asleep]) (fun ch h => h) (by rw [hself]) rfl rfl
  exact ⟨hi', hg, KernelOk.sched rfl ⟨hd.stack, hd.cpu, by simp, by simp, by simp, by simp, hd.holds⟩⟩

end PbsCow

import PbsCow.ScanLocks

namespace PbsCow
set_option autoImplicit true

variable {C : Type}

/-- The lock under which the kernel sleeps on a channel. -/
def Chan.lk : Chan → Lock
  | .ticks => .ticks
  | .other n => .obj n
  | _ => .wait

/-- The record of a process that is a zombie now. -/
def Exit.Of (e : Exit) (s : Kmem C) (i : Slot) : Prop :=
  e = ⟨s.uid i, (s.proc i).pid, (s.proc i).xstate, (s.proc i).rtime, (s.proc i).ctime,
    (s.proc i).etime⟩

/-- A call of `wait` returned the exit `e`, and it was made by the parent. -/
structure Reap.Of (r : Reap) (e : Exit) (init : Slot) : Prop where
  uid : e.uid = r.uid
  parent : r.parent = some r.waiter
  waiter : r.waiter = r.forker ∨ r.waiter = init
  pid : r.pid = e.pid
  xstate : ∀ x, r.xstate = some x → x = e.xstate
  rtime : ∀ t, r.rtime = some t → t = e.rtime
  wtime : ∀ t, r.wtime = some t → t = e.etime - e.ctime - e.rtime

/-- What holds of a slot at any time: only its CPU or the holder of its lock can be about to change
its state. -/
structure Fine (s : Kmem C) (i : Slot) : Prop where
  running : (s.proc i).state = .RUNNING → ∃ c, s.cpu c = some i
  cpu : ∀ c, s.cpu c = some i → (s.proc i).state = .RUNNING ∨ s.lock (.proc i) = some c
  asleep : ∀ chan, s.asleep i = some chan →
    (s.proc i).state = .SLEEPING ∧ (s.proc i).chan = chan ∨
    ∃ c, s.lock (.proc i) = some c ∧ s.cpu c = some i
  sleeping : (s.proc i).state = .SLEEPING → s.asleep i = some (s.proc i).chan
  unused : (s.proc i).state = .UNUSED → (s.proc i).parent = none
  used : (s.proc i).state = .USED →
    ∃ c, s.lock (.proc i) = some c ∧ ∀ p, (s.proc i).parent = some p → s.cpu c = some p
  entry : (s.context i).Entry i
  parent : ∀ p, (s.proc i).parent = some p → p = s.forker i ∨ p = s.initproc
  zombie : (s.proc i).state = .ZOMBIE → ∃ e ∈ s.exits, e.Of s i
  exited : ∀ e ∈ s.exits, e.uid = s.uid i →
    (s.proc i).state = .ZOMBIE ∨ (s.proc i).state = .UNUSED
  reaped : ∀ r ∈ s.reaps, r.uid = s.uid i → (s.proc i).state = .UNUSED
  uid : s.uid i < s.nextuid

/-- No process sleeps, or is about to, in `wait` while a child of its is a zombie. -/
def Kmem.NoMiss (s : Kmem C) : Prop :=
  ∀ p i, s.asleep p = some (.proc (some p)) → (s.proc i).state = .ZOMBIE →
    (s.proc i).parent ≠ some p

/-- No process sleeps on the object `n`, or is about to. -/
def Kmem.NoSleeper (s : Kmem C) (n : Nat) : Prop := ∀ p, s.asleep p ≠ some (.other n)

structure KernelInv (s : Kmem C) : Prop where
  fine : ∀ i, Fine s i
  stack : ∀ c p, s.stack c = some p → s.cpu c = some p ∧ s.saved c = .back p
  one : ∀ c c' p, s.cpu c = some p → s.cpu c' = some p → c = c'
  uids : ∀ i j, s.uid i = s.uid j → i = j
  init : s.initproc = Smp.first
  exits : ∀ e ∈ s.exits, e.uid < s.nextuid
  exit_once : (s.exits.map Exit.uid).Nodup
  reaps : ∀ r ∈ s.reaps, ∃ e ∈ s.exits, r.Of e s.initproc
  reap_once : (s.reaps.map Reap.uid).Nodup
  noMiss : s.lock .wait = none → s.NoMiss
  noSleeper : ∀ n, s.lock (.obj n) = none → s.woken n = true → s.NoSleeper n
  cond : ∀ n, s.woken n = true → s.cond n = true

/-- What a step of CPU `c` leaves alone, given the locks that the CPU holds. -/
structure KernelGuar (c : C) (s s' : Kmem C) : Prop where
  cpu : ∀ c', c' ≠ c → s'.cpu c' = s.cpu c' ∧ s'.stack c' = s.stack c'
  lock : ∀ l c', c' ≠ c → (s'.lock l = some c' ↔ s.lock l = some c')
  slot : ∀ i, s.lock (.proc i) ≠ some c →
    (s'.proc i).state = (s.proc i).state ∧ s'.asleep i = s.asleep i
  run : ∀ i, s.cpu c ≠ some i → (s.proc i).state = .RUNNING →
    (s'.proc i).state = .RUNNING ∧ s'.asleep i = s.asleep i
  zombie : ∀ i, s.lock .wait ≠ some c → (s'.proc i).state = .ZOMBIE → (s.proc i).state = .ZOMBIE
  parent : ∀ i, s.lock .wait ≠ some c → (s'.proc i).parent = (s.proc i).parent ∨
    (s.proc i).state = .USED ∧ s.lock (.proc i) = some c
  asleep : ∀ i chan, s.lock chan.lk ≠ some c → s'.asleep i = some chan → s.asleep i = some chan
  obj : ∀ n, s.lock (.obj n) ≠ some c → s'.woken n = s.woken n ∧ s'.cond n = s.cond n

/-- CPU `c` runs the process `me`, or its scheduler, and holds the locks in `l`. -/
structure At (c : C) (me : Option Slot) (l : List Lock) (s : Kmem C) : Prop where
  stack : s.stack c = me
  cpu : s.cpu c = me
  run : ∀ p, me = some p → (s.proc p).state = .RUNNING ∧ s.asleep p = none
  holds : ∀ k, s.lock k = some c ↔ k ∈ l

/-- CPU `c` leaves process `p`, and holds the locks in `l`. -/
structure Leaves (c : C) (p : Slot) (stack : Option Slot) (l : List Lock) (s : Kmem C) : Prop where
  stack : s.stack c = stack
  cpu : s.cpu c = some p
  state : (s.proc p).state ≠ .RUNNING
  not_used : (s.proc p).state ≠ .USED
  asleep : (s.proc p).state ≠ .SLEEPING → s.asleep p = none
  lock : .proc p ∈ l
  holds : ∀ k, s.lock k = some c ↔ k ∈ l

def kernelContract : Contract C (Kmem C) Label where
  inv := KernelInv
  guar := KernelGuar
  pre c
    | .scan _ => At c none []
    | .chosen none => At c none []
    | .chosen (some h) => fun s => At c none [.proc h] s ∧ (s.proc h).state = .RUNNABLE
    | .back h => Leaves c h none [.proc h]
    | .point p _ => At c (some p) []
    | .forkret p => At c (some p) [.proc p]
    | .yielded p _ => At c (some p) [.proc p]
    | .slept p _ => At c (some p) [.proc p]
    | .dead p => At c (some p) [.proc p]
  post _ _ := True

/-- CPU `c` keeps the contract of the kernel. -/
abbrev KernelOk (c : C) (k : Code C) (s : Kmem C) : Prop :=
  kernelContract.Ok (fun _ _ _ => True) c k s

theorem KernelGuar.refl (c : C) (s : Kmem C) : KernelGuar c s s :=
  ⟨fun _ _ => ⟨rfl, rfl⟩, fun _ _ _ => Iff.rfl, fun _ _ => ⟨rfl, rfl⟩, fun _ _ h => ⟨h, rfl⟩,
    fun _ _ h => h, fun _ _ => .inl rfl, fun _ _ _ h => h, fun _ _ => ⟨rfl, rfl⟩⟩

theorem At.not_cpu {s : Kmem C} (h : At c (some p) l s) (hi : KernelInv s) (hc : c' ≠ c) :
    s.cpu c' ≠ some p :=
  fun hp => hc (hi.one c' c p hp h.cpu)

theorem At.stable (c : C) (me : Option Slot) (l : List Lock) :
    kernelContract.Stable c (At c me l) := by
  rintro s s' h ⟨hi, _, c', hc, hg⟩
  obtain ⟨hcpu, hstack⟩ := hg.cpu c fun he => hc he.symm
  refine ⟨hstack.trans h.stack, hcpu.trans h.cpu, fun p hp => ?_, fun k => ?_⟩
  · subst hp
    obtain ⟨hr, ha⟩ := h.run p rfl
    obtain ⟨hr', ha'⟩ := hg.run p (h.not_cpu hi hc) hr
    exact ⟨hr', ha'.trans ha⟩
  · exact (hg.lock k c fun he => hc he.symm).trans (h.holds k)

theorem Kmem.not_held {s : Kmem C} (h : s.lock k = some c) (hc : c' ≠ c) : s.lock k ≠ some c' := by
  rw [h]
  intro he
  injection he with he
  exact hc he.symm

theorem Kmem.free_ne (s : Kmem C) (h : s.lock k = none) : s.lock k ≠ some c := by
  rw [h]
  simp

theorem Leaves.stable (c : C) (p : Slot) (stack : Option Slot) (l : List Lock) :
    kernelContract.Stable c (Leaves c p stack l) := by
  rintro s s' h ⟨hi, _, c', hc, hg⟩
  obtain ⟨hcpu, hstack⟩ := hg.cpu c fun he => hc he.symm
  obtain ⟨hst, ha⟩ := hg.slot p (Kmem.not_held ((h.holds _).2 h.lock) hc)
  refine ⟨hstack.trans h.stack, hcpu.trans h.cpu, by rw [hst]; exact h.state,
    by rw [hst]; exact h.not_used, by rw [hst, ha]; exact h.asleep, h.lock, fun k => ?_⟩
  exact (hg.lock k c fun he => hc he.symm).trans (h.holds k)

/-- What a step that does not hold `wait_lock` does to waiting parents. -/
theorem KernelGuar.noMiss {s s' : Kmem C} (hg : KernelGuar c s s') (hl : s.lock .wait ≠ some c)
    (h : s.NoMiss) : s'.NoMiss := by
  intro p i hp hz hpar
  have hz' := hg.zombie i hl hz
  rcases hg.parent i hl with he | ⟨hu, _⟩
  · exact h p i (hg.asleep p _ hl hp) hz' (he ▸ hpar)
  · rw [hu] at hz'
    cases hz'

theorem KernelGuar.noSleeper {s s' : Kmem C} (hg : KernelGuar c s s')
    (hl : s.lock (.obj n) ≠ some c) (h : s.NoSleeper n) : s'.NoSleeper n :=
  fun p hp => h p (hg.asleep p (.other n) hl hp)

end PbsCow

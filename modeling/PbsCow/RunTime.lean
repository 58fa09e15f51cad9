import PbsCow.KernelRuns

namespace PbsCow
set_option autoImplicit true

variable {C : Type}

/-- A slot has been charged for ticks since its process was created, and at most once for each. -/
structure Account (s : Kmem C) (i : Slot) : Prop where
  ctime : (s.proc i).ctime = BitVec.ofNat 32 (s.born i)
  born : s.born i ≤ s.now
  rtime : (s.proc i).rtime.toNat ≤ s.now - s.born i
  due : s.due i = true → s.born i < s.now → (s.proc i).rtime.toNat < s.now - s.born i

structure TimeInv (s : Kmem C) : Prop where
  account : ∀ i, Account s i
  ticks : s.ticks = BitVec.ofNat 32 s.now
  exits : ∀ e ∈ s.exits, e.rtime ≤ e.etime - e.ctime

/-- Only the holder of `tickslock` tells which slots `update_time` has still to visit. -/
def TimeGuar (c : C) (s s' : Kmem C) : Prop :=
  ∀ c', c' ≠ c → s.lock .ticks = some c' → s'.lock .ticks = some c' ∧ s'.due = s.due

def timeContract : Contract C (Kmem C) Label where
  inv := TimeInv
  guar := TimeGuar
  pre _ _ _ := True
  post _ _ := True

/-- The step does not charge a process for the tick in which it was created, and ends no process
that has lived for 2^32 ticks. -/
def InTime (_ : C) (k : Code C) (s : Kmem C) : Prop :=
  (∀ i k', k = .modify (Smp.charge i) k' → (s.proc i).state = .RUNNING → s.born i < s.now) ∧
  ∀ p status k', k = .modify (Smp.setZombie p status) k' → s.now - s.born p < 2 ^ 32

/-- The code keeps the accounts wherever it starts. -/
def TimeOk (c : C) (k : Code C) : Prop := ∀ s, timeContract.Ok InTime c k s

/-- A step that touches no account. -/
structure Calm (c : C) (s s' : Kmem C) : Prop where
  proc : ∀ i, (s'.proc i).rtime = (s.proc i).rtime ∧ (s'.proc i).ctime = (s.proc i).ctime
  born : s'.born = s.born
  due : s'.due = s.due
  now : s'.now = s.now
  ticks : s'.ticks = s.ticks
  exits : s'.exits = s.exits
  lock : ∀ c', c' ≠ c → s.lock .ticks = some c' → s'.lock .ticks = some c'

theorem Calm.refl (c : C) (s : Kmem C) : Calm c s s :=
  ⟨fun _ => ⟨rfl, rfl⟩, rfl, rfl, rfl, rfl, rfl, fun _ _ h => h⟩

theorem Calm.setProc {s s' : Kmem C} (h : Calm c s s') {f : Proc → Proc}
    (hf : (f (s'.proc i)).rtime = (s'.proc i).rtime ∧ (f (s'.proc i)).ctime = (s'.proc i).ctime) :
    Calm c s (s'.setProc i f) := by
  refine ⟨fun j => ?_, h.born, h.due, h.now, h.ticks, h.exits, h.lock⟩
  by_cases hj : j = i
  · subst hj
    rw [Kmem.setProc_self, hf.1, hf.2]
    exact h.proc j
  · rw [Kmem.setProc_of_ne _ hj]
    exact h.proc j

theorem Calm.asleep (c : C) (s : Kmem C) (f : Slot → Option Chan) : Calm c s { s with asleep := f } :=
  ⟨fun _ => ⟨rfl, rfl⟩, rfl, rfl, rfl, rfl, rfl, fun _ _ h => h⟩

theorem Calm.spin (c : C) (s : Kmem C) (f : C → Option Lock) : Calm c s { s with spin := f } :=
  ⟨fun _ => ⟨rfl, rfl⟩, rfl, rfl, rfl, rfl, rfl, fun _ _ h => h⟩

theorem Calm.takeSlot (c : C) (s : Kmem C) (i : Slot) : Calm c s (Smp.takeSlot i s) := by
  have h : Calm c s { s with
      nextpid := s.nextpid + 1, uid := Function.update s.uid i s.nextuid, nextuid := s.nextuid + 1 } :=
    ⟨fun _ => ⟨rfl, rfl⟩, rfl, rfl, rfl, rfl, rfl, fun _ _ h => h⟩
  exact h.setProc ⟨rfl, rfl⟩

theorem Calm.adopt (c : C) (s : Kmem C) (i p : Slot) : Calm c s
    (Kmem.setProc { s with forker := Function.update s.forker i p } i fun q => { q with
      parent := some p }) := by
  have h : Calm c s { s with forker := Function.update s.forker i p } :=
    ⟨fun _ => ⟨rfl, rfl⟩, rfl, rfl, rfl, rfl, rfl, fun _ _ h => h⟩
  exact h.setProc ⟨rfl, rfl⟩

theorem Calm.freeproc {s s' : Kmem C} (h : Calm c s s') : Calm c s (Smp.freeproc i s') :=
  h.setProc ⟨rfl, rfl⟩

theorem Account.congr {s s' : Kmem C} (h : Account s i)
    (hp : (s'.proc i).rtime = (s.proc i).rtime ∧ (s'.proc i).ctime = (s.proc i).ctime)
    (hb : s'.born i = s.born i) (hd : s'.due i = true → s.due i = true) (hn : s'.now = s.now) :
    Account s' i := by
  refine ⟨?_, ?_, ?_, fun hdue hlt => ?_⟩
  · rw [hp.2, hb]
    exact h.ctime
  · rw [hb, hn]
    exact h.born
  · rw [hp.1, hb, hn]
    exact h.rtime
  · rw [hb, hn] at hlt
    rw [hp.1, hb, hn]
    exact h.due (hd hdue) hlt

theorem Calm.inv {s s' : Kmem C} (h : Calm c s s') (hi : TimeInv s) : TimeInv s' := by
  refine ⟨fun i => (hi.account i).congr (h.proc i) (by rw [h.born]) (by rw [h.due]; exact id) h.now,
    ?_, ?_⟩
  · rw [h.ticks, h.now]
    exact hi.ticks
  · rw [h.exits]
    exact hi.exits

theorem Calm.guar {s s' : Kmem C} (h : Calm c s s') : TimeGuar c s s' :=
  fun c' hc hl => ⟨h.lock c' hc hl, h.due⟩

theorem TimeOk.act {f : Kmem C → Option (Kmem C)} {k : Kmem C → Code C}
    (hf : ∀ s s', f s = some s' → Calm c s s') (hk : ∀ s, TimeOk c (k s)) : TimeOk c (.act f k) := by
  intro s
  refine .act (P := fun _ => True) (fun _ _ _ _ => trivial) trivial fun s s' hi _ h => ?_
  exact ⟨(hf s s' h).inv hi, (hf s s' h).guar, hk s s'⟩

theorem TimeOk.modify {f : Kmem C → Kmem C} (hf : ∀ s, Calm c s (f s)) (hk : TimeOk c k) :
    TimeOk c (.modify f k) := by
  refine .act (fun s s' h => ?_) fun _ => hk
  injection h with h
  exact h ▸ hf s

theorem TimeOk.setProc {f : Kmem C → Proc → Proc}
    (hf : ∀ s q, (f s q).rtime = q.rtime ∧ (f s q).ctime = q.ctime) (hk : TimeOk c k) :
    TimeOk c (.modify (fun s => s.setProc i (f s)) k) :=
  .modify (fun s => (Calm.refl c s).setProc (hf s _)) hk

theorem TimeOk.read {k : Kmem C → Code C} (hk : ∀ s, TimeOk c (k s)) : TimeOk c (.read k) := by
  refine .act (fun s s' h => ?_) hk
  injection h with h
  exact h ▸ .refl c s

theorem TimeOk.pick {k : Input → Code C} (hk : ∀ w, TimeOk c (k w)) : TimeOk c (.pick k) := by
  intro s
  exact Contract.Ok.pick (P := fun _ => True) (fun _ _ _ _ => trivial) trivial fun s w _ _ => hk w s

theorem TimeOk.ite {p : Prop} [Decidable p] {a b : Code C} (ha : TimeOk c a) (hb : TimeOk c b) :
    TimeOk c (if p then a else b) := by
  split
  · exact ha
  · exact hb

theorem TimeOk.goto : TimeOk c (.goto l) := fun _ => trivial

/-- The end of `allocproc` opens a new account. -/
theorem TimeInv.initSlot {s : Kmem C} (hi : TimeInv s) (i : Slot) : TimeInv (Smp.initSlot i s) := by
  refine ⟨fun j => ?_, hi.ticks, hi.exits⟩
  have hborn : (Smp.initSlot i s).born = Function.update s.born i s.now := rfl
  by_cases hj : j = i
  · subst hj
    have hself : (Smp.initSlot j s).proc j = _ := Kmem.setProc_self _ j _
    refine ⟨?_, ?_, ?_, fun _ hlt => ?_⟩
    · rw [hself, hborn, Function.update_self]
      exact hi.ticks
    · rw [hborn, Function.update_self]
      exact le_refl s.now
    · rw [hself]
      simp
    · rw [hborn, Function.update_self] at hlt
      exact (lt_irrefl s.now hlt).elim
  · refine (hi.account j).congr ?_ ?_ id rfl
    · rw [show (Smp.initSlot i s).proc j = s.proc j from Kmem.setProc_of_ne _ hj _]
      exact ⟨rfl, rfl⟩
    · rw [hborn, Function.update_of_ne hj]

/-- The time between two readings of `ticks` that are less than 2^32 ticks apart. -/
theorem toNat_elapsed {n m : Nat} (h : n ≤ m) (hlt : m - n < 2 ^ 32) :
    (BitVec.ofNat 32 m - BitVec.ofNat 32 n).toNat = m - n := by
  rw [BitVec.toNat_sub, BitVec.toNat_ofNat, BitVec.toNat_ofNat]
  omega

/-- A process that exits in time has been charged for no more than its life. -/
theorem TimeInv.setZombie {s : Kmem C} (hi : TimeInv s) (hlt : s.now - s.born p < 2 ^ 32) :
    TimeInv (Smp.setZombie p status s) := by
  have hproc (i : Slot) : ((Smp.setZombie p status s).proc i).rtime = (s.proc i).rtime ∧
      ((Smp.setZombie p status s).proc i).ctime = (s.proc i).ctime := by
    rw [Smp.setZombie]
    by_cases hj : i = p
    · subst hj
      rw [Kmem.setProc_self]
      exact ⟨rfl, rfl⟩
    · rw [Kmem.setProc_of_ne _ hj]
      exact ⟨rfl, rfl⟩
  refine ⟨fun i => (hi.account i).congr (hproc i) rfl id rfl, hi.ticks, fun e he => ?_⟩
  cases he with
  | tail _ he => exact hi.exits e he
  | head =>
    have ha := hi.account p
    change (s.proc p).rtime ≤ s.ticks - (s.proc p).ctime
    rw [hi.ticks, ha.ctime, BitVec.le_def, toNat_elapsed ha.born hlt]
    exact ha.rtime

theorem TimeInv.tick {s : Kmem C} (hi : TimeInv s) : TimeInv (Smp.tick s) := by
  refine ⟨fun i => ?_, ?_, hi.exits⟩
  · have ha := hi.account i
    have hborn : s.born i ≤ s.now := ha.born
    have hr : (s.proc i).rtime.toNat ≤ s.now - s.born i := ha.rtime
    refine ⟨ha.ctime, ?_, ?_, fun _ _ => ?_⟩
    · change s.born i ≤ s.now + 1
      omega
    · change (s.proc i).rtime.toNat ≤ s.now + 1 - s.born i
      omega
    · change (s.proc i).rtime.toNat < s.now + 1 - s.born i
      omega
  · change s.ticks + 1 = BitVec.ofNat 32 (s.now + 1)
    rw [hi.ticks, BitVec.ofNat_add]
    rfl

theorem TimeInv.charge {s : Kmem C} (hi : TimeInv s) (hd : s.due i = true)
    (hb : (s.proc i).state = .RUNNING → s.born i < s.now) : TimeInv (Smp.charge i s) := by
  have hdue : (Smp.charge i s).due = Function.update s.due i false := rfl
  refine ⟨fun j => ?_, hi.ticks, hi.exits⟩
  by_cases hj : j = i
  · subst hj
    have ha := hi.account j
    have hself : (Smp.charge j s).proc j = if (s.proc j).state = .RUNNING then
        { s.proc j with rtime := (s.proc j).rtime + 1 } else s.proc j := Kmem.setProc_self _ j _
    by_cases hr : (s.proc j).state = .RUNNING
    · rw [if_pos hr] at hself
      refine ⟨by rw [hself]; exact ha.ctime, ha.born, ?_, fun h => ?_⟩
      · rw [hself]
        calc ((s.proc j).rtime + 1).toNat ≤ (s.proc j).rtime.toNat + 1 := by
              rw [BitVec.toNat_add]
              exact Nat.mod_le _ _
          _ ≤ s.now - s.born j := ha.due hd (hb hr)
      · rw [hdue, Function.update_self] at h
        cases h
    · rw [if_neg hr] at hself
      refine ha.congr (by rw [hself]; exact ⟨rfl, rfl⟩) rfl (fun h => ?_) rfl
      rw [hdue, Function.update_self] at h
      cases h
  · refine (hi.account j).congr ?_ rfl ?_ rfl
    · rw [show (Smp.charge i s).proc j = s.proc j from Kmem.setProc_of_ne _ hj _]
      exact ⟨rfl, rfl⟩
    · rw [hdue, Function.update_of_ne hj]
      exact id

theorem TimeOk.initSlot (hk : TimeOk c k) : TimeOk c (.modify (Smp.initSlot i) k) := by
  intro s
  refine .modify (P := fun _ => True) (fun _ _ _ _ => trivial) trivial fun s hi _ => ?_
  exact ⟨hi.initSlot i, fun c' _ hl => ⟨hl, rfl⟩, hk _⟩

theorem TimeOk.object {f : Kmem C → Kmem C} (hf : ∀ s, ∃ g h, f s = { s with cond := g, woken := h })
    (hk : TimeOk c k) : TimeOk c (.modify f k) := by
  refine .modify (fun s => ?_) hk
  obtain ⟨g, h, he⟩ := hf s
  rw [he]
  exact ⟨fun _ => ⟨rfl, rfl⟩, rfl, rfl, rfl, rfl, rfl, fun _ _ h => h⟩

variable [DecidableEq C] {c : C}

theorem Calm.take {s : Kmem C} (h : s.lock l = none) : Calm c s (s.take c l) :=
  ⟨fun _ => ⟨rfl, rfl⟩, rfl, rfl, rfl, rfl, rfl, fun _ _ hc => (owner_take h).2 (.inl hc)⟩

theorem TimeOk.acquire (hk : TimeOk c k) : TimeOk c (Smp.acquire c l k) := by
  refine .modify (fun s => .spin c s _) (.act (fun s s' h => ?_) fun _ => hk)
  split at h
  case isFalse => cases h
  case isTrue hfree =>
    injection h with h
    exact h ▸ .take hfree

theorem Calm.release {s s' : Kmem C} (h : s.release c l = some s') : Calm c s s' := by
  rw [Kmem.release] at h
  split at h
  case isFalse => cases h
  case isTrue hl =>
    injection h with h
    subst h
    refine ⟨fun _ => ⟨rfl, rfl⟩, rfl, rfl, rfl, rfl, rfl, fun c' hc h => owner_drop.2 ⟨h, ?_⟩⟩
    rintro rfl
    rw [hl] at h
    injection h with h
    exact hc h.symm

theorem TimeOk.release (hk : TimeOk c k) : TimeOk c (Smp.release c l k) :=
  .act (fun _ _ h => .release h) fun _ => hk

theorem TimeOk.visit {f : Slot → Kmem C → Kmem C} (hf : ∀ i s, Calm c s (f i s)) (hk : TimeOk c k) :
    TimeOk c (Smp.visit c f k l) := by
  induction l with
  | nil => exact hk
  | cons i l ih => exact .acquire (.modify (hf i) (.release ih))

theorem TimeOk.wakeup (hk : TimeOk c k) : TimeOk c (Smp.wakeup c me chan k) := by
  refine .visit (fun i s => ?_) hk
  rw [Smp.wake]
  split
  · exact (Calm.asleep c s _).setProc ⟨rfl, rfl⟩
  · exact .refl c s

theorem TimeOk.sched : TimeOk c (Smp.sched c p l) := by
  refine .act (fun s s' h => ?_) fun _ => .goto
  split at h
  case isFalse => cases h
  case isTrue =>
    injection h with h
    subst h
    exact ⟨fun _ => ⟨rfl, rfl⟩, rfl, rfl, rfl, rfl, rfl, fun _ _ h => h⟩

theorem TimeOk.yield : TimeOk c (Smp.yield c p q) :=
  .acquire (.setProc (fun _ _ => ⟨rfl, rfl⟩) .sched)

theorem TimeOk.sleep : TimeOk c (Smp.sleep c p chan lk q) := by
  refine .acquire (.act (fun s s' h => ?_) fun _ => .setProc (fun _ _ => ⟨rfl, rfl⟩) .sched)
  obtain ⟨s₁, h₁, rfl⟩ := Option.map_eq_some_iff.1 h
  have hc := Calm.release h₁
  exact ⟨hc.proc, hc.born, hc.due, hc.now, hc.ticks, hc.exits, hc.lock⟩

theorem TimeOk.reparent (hk : TimeOk c k) : TimeOk c (Smp.reparent c p k l) := by
  induction l with
  | nil => exact hk
  | cons pp l ih =>
    exact .read fun s => .ite (.setProc (fun _ _ => ⟨rfl, rfl⟩) (.read fun s => .wakeup ih)) ih

theorem TimeOk.exit : TimeOk c (Smp.exit c p status) := by
  refine .read fun s => .ite (fun _ => trivial) (.acquire (.reparent (.read fun s => .wakeup
    (.acquire fun s => ?_))))
  refine ⟨fun _ => True, fun _ _ _ _ => trivial, trivial, fun s s' hi _ hd h => ?_⟩
  injection h with h
  subst h
  exact ⟨hi.setZombie (hd.2 p status _ rfl), fun c' _ hl => ⟨hl, rfl⟩,
    TimeOk.release TimeOk.sched _⟩

theorem TimeOk.killed {k : Bool → Code C} (hk : ∀ b, TimeOk c (k b)) :
    TimeOk c (Smp.killed c p k) :=
  .acquire (.read fun _ => .release (hk _))

theorem TimeOk.waitScan : TimeOk c (Smp.waitScan c p x addr l havekids) := by
  induction l generalizing havekids with
  | nil =>
    have hagain (b : Bool) : TimeOk c (if b then Smp.release c .wait (.goto (.point p .user))
        else Smp.sleep c p (.proc (some p)) .wait (.wait x addr)) := .ite (.release .goto) .sleep
    exact .ite (.ite (.read fun s => hagain _) (.killed hagain)) (.release .goto)
  | cons pp l ih =>
    have hover : TimeOk c (Smp.release c (.proc pp) (Smp.release c .wait
        (.goto (.point p .user)))) := .release (.release .goto)
    have hreap : TimeOk c (.modify (Smp.reap p x addr pp) (Smp.release c (.proc pp)
        (Smp.release c .wait (.goto (.point p .user))))) :=
      .modify (fun s => .freeproc ⟨fun _ => ⟨rfl, rfl⟩, rfl, rfl, rfl, rfl, rfl, fun _ _ h => h⟩) hover
    refine .read fun s => .ite (.acquire (.read fun s => .ite (.pick fun w => ?_) (.release ih))) ih
    cases w with
    | fail => exact .ite hover hreap
    | _ => exact hreap

theorem TimeOk.kill : TimeOk c (Smp.kill c p pid l) := by
  cases l with
  | nil => exact .goto
  | cons i l =>
    refine .acquire (.read fun s => .ite (.modify (fun s => ?_) (.release .goto)) (.release .goto))
    rw [Smp.setKilled]
    split
    · exact (Calm.asleep c s _).setProc ⟨rfl, rfl⟩
    · exact (Calm.refl c s).setProc ⟨rfl, rfl⟩

theorem TimeOk.fork : TimeOk c (Smp.fork c p l) := by
  cases l with
  | nil => exact .goto
  | cons np l =>
    have hsame (s : Kmem C) : Calm c s s := .refl c s
    have hfails : TimeOk c (.modify (Smp.freeproc np) (Smp.release c (.proc np)
        (.goto (.point p .user)))) := .modify (fun s => .freeproc (hsame s)) (.release .goto)
    refine .acquire (.read fun s => .ite (.modify (fun s => .takeSlot c s np) (.pick fun w => ?_))
      (.release .goto))
    split
    case h_1 => exact hfails
    case h_2 =>
      refine .initSlot (.pick fun w => ?_)
      split
      case h_1 => exact hfails
      case h_2 =>
        exact .modify (fun s => .adopt c s np p) (.setProc (fun _ _ => ⟨rfl, rfl⟩) (.release .goto))

theorem TimeOk.setPriority : TimeOk c (Smp.setPriority c p pid new_priority l do_yield) := by
  cases l with
  | nil => exact .ite .yield .goto
  | cons i l =>
    exact .acquire (.read fun s => .ite (.setProc (fun _ _ => ⟨rfl, rfl⟩) (.release .goto))
      (.release .goto))

theorem TimeOk.sysSleep : TimeOk c (Smp.sysSleep c p n ticks0) :=
  .acquire (.read fun _ => .ite (.killed fun _ => .ite (.release .goto) .sleep) (.release .goto))

theorem TimeOk.test : TimeOk c (Smp.test c p n) := by
  refine .acquire (.read fun s => .ite (.pick fun w => ?_) .sleep)
  split
  · exact .release .goto
  · exact .object (fun s => ⟨_, _, rfl⟩) (.release .goto)

theorem TimeOk.make : TimeOk c (Smp.make c p n before) := by
  have hover : TimeOk c (.modify (fun s => { s with woken := Function.update s.woken n true })
      (Smp.release c (.obj n) (.goto (.point p .user)))) :=
    .object (fun s => ⟨_, _, rfl⟩) (.release .goto)
  exact .acquire (.ite (.object (fun s => ⟨_, _, rfl⟩) (.wakeup hover))
    (.wakeup (.object (fun s => ⟨_, _, rfl⟩) hover)))

end PbsCow

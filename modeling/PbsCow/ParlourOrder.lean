import PbsCow.Lib.IndexGate
import PbsCow.Parlour

namespace PbsCow
set_option autoImplicit true

namespace Parlour

open Pthread

/-- The two places where threads go on in the order of their indices. -/
inductive Gate where
  | customers
  | icecreams

namespace Gate

def counter : Gate → Data → Int
  | .customers => Data.scheduler
  | .icecreams => Data.scheduleind

def thread : Gate → Nat → Tid
  | .customers => .arrival
  | .icecreams => .queue

def cond : Gate → Cond
  | .customers => .verfastswap
  | .icecreams => .fastswap

/-- The threads that come to the gate. -/
def size (q : Config) : Gate → Nat
  | .customers => q.tot_customer
  | .icecreams => q.total_icecream

/-- The head of the loop with the test. -/
def head : Gate → Nat → Label
  | .customers => .gate
  | .icecreams => .turn

/-- The code up to the gate. -/
def ahead : Gate → Label → Bool
  | .customers, .gate _ => true
  | .icecreams, .allocated _ => true
  | .icecreams, .turn _ => true
  | _, _ => false

/-- What follows the increment, which the thread makes while it owns the mutex. -/
def onward (q : Config) : Gate → Nat → Code
  | .customers, i =>
    unlock (.arrival i) .mutex <|
    signal .verfastswap (·.owe (.arrival i) .verfastswap false) <|
    lock (.arrival i) .mutex <| .goto (.comes i)
  | .icecreams, j =>
    unlock (.queue j) .mutex <|
    signal .fastswap (·.owe (.queue j) .fastswap false) <|
    look fun d => if d.ingredients (q.buyer j) = 0 then returns (.queue j) else .goto (.seek j 0)

/-- The increment. -/
def increment (q : Config) : Gate → Nat → Code
  | .customers, i => update (fun d => { d with
      scheduler := d.scheduler + 1 }.owe (.arrival i) .verfastswap true) (onward q .customers i)
  | .icecreams, j => update (fun d => { d with
      scheduleind := d.scheduleind + 1 }.owe (.queue j) .fastswap true) (onward q .icecreams j)

/-- What follows a test that has succeeded. -/
def enter (q : Config) (g : Gate) (i : Nat) : Code := lock (g.thread i) .mutex (g.increment q i)

def shut (g : Gate) (i : Nat) : Code :=
  lock (g.thread i) .mutex <| condWait (g.thread i) g.cond .mutex <| unlock (g.thread i) .mutex <|
  .goto (g.head i)

def index (q : Config) (g : Gate) : IndexGate Tid Memory Bool Label where
  count s := g.counter s.data
  thread := g.thread
  shut := g.shut
  enter := g.enter q
  before i l := l.tid = g.thread i ∧ g.ahead l = true
  after t l := l.tid = t ∧ g.ahead l = false

/-- Thread `i` is between its successful test and its increment. -/
def Between (q : Config) (g : Gate) (x : Threads Tid Memory Bool Label) (i : Nat) : Prop :=
  x.code (g.thread i) = g.enter q i ∨ x.code (g.thread i) = g.increment q i

end Gate

variable {q : Config} {g : Gate} {t : Tid}

theorem Gate.test_customers (q : Config) (i : Nat) : (Gate.customers.index q).test i = gate i := by
  simp only [gate, poll, look, Gate.enter, IndexGate.test, Gate.index, Gate.counter, Gate.shut, Gate.thread,
    Gate.cond, Gate.head, decide_eq_true_eq]
  rfl

theorem Gate.test_icecreams (q : Config) (j : Nat) : (Gate.icecreams.index q).test j = turn q j := by
  simp only [turn, poll, look, Gate.enter, IndexGate.test, Gate.index, Gate.counter, Gate.shut, Gate.thread,
    Gate.cond, Gate.head, decide_eq_true_eq]
  rfl

/-- Code of `t` that has nothing to do with the gate. -/
abbrev Still (q : Config) (g : Gate) (t : Tid) (k : Code) : Prop :=
  k.Quiet (g.index q).count ((g.index q).after t)

namespace Still

variable {k : Code}

theorem act {f : Memory → Option Memory} {k : Memory → Code}
    (hf : ∀ s s', f s = some s' → g.counter s'.data = g.counter s.data) (hk : ∀ s, Still q g t (k s)) :
    Still q g t (.act f k) := ⟨hf, hk⟩

theorem modify {f : Memory → Memory} (hf : ∀ s, g.counter (f s).data = g.counter s.data)
    (hk : Still q g t k) : Still q g t (.modify f k) := by
  apply act
  · intro s s' h
    injection h with h
    rw [← h, hf]
  · exact fun _ => hk

/-- An action that does not touch the data, if it can be done. -/
theorem guarded {c : Memory → Prop} [DecidablePred c] {f : Memory → Memory} (hf : ∀ s, (f s).data = s.data)
    (hk : Still q g t k) : Still q g t (.act (fun s => if c s then some (f s) else none) fun _ => k) := by
  apply act
  · intro s s' h
    split at h
    · injection h with h
      rw [← h, hf]
    · cases h
  · exact fun _ => hk

theorem lock (hk : Still q g t k) : Still q g t (Pthread.lock t' m k) := guarded (fun _ => rfl) hk

theorem unlock (hk : Still q g t k) : Still q g t (Pthread.unlock t' m k) := guarded (fun _ => rfl) hk

theorem condWait (hk : Still q g t k) : Still q g t (Pthread.condWait t' c m k) := by
  apply act
  · intro s s' h
    split at h
    · injection h with h
      rw [← h]
    · cases h
  · intro _ w
    cases w with
    | true => exact modify (fun _ => rfl) (lock hk)
    | false => exact guarded (fun _ => rfl) (lock hk)

theorem broadcast (hk : Still q g t k) : Still q g t (Pthread.broadcast c k) := modify (fun _ => rfl) hk

theorem update {f : Data → Data} (hf : ∀ d, g.counter (f d) = g.counter d) (hk : Still q g t k) :
    Still q g t (Pthread.update f k) := modify (fun s => hf s.data) hk

theorem signal {f : Data → Data} (hf : ∀ d, g.counter (f d) = g.counter d) (hk : Still q g t k) :
    Still q g t (Parlour.signal c f k) := modify (fun s => hf s.data) hk

theorem look {k : Data → Code} (hk : ∀ d, Still q g t (k d)) : Still q g t (Pthread.look k) := by
  apply act
  · intro s s' h
    injection h with h
    rw [h]
  · exact fun s => hk s.data

theorem goto (ht : l.tid = t) (hl : g.ahead l = false) : Still q g t (.goto l) := ⟨ht, hl⟩

theorem returns : Still q g t (Parlour.returns t') := update (fun _ => by cases g <;> rfl) trivial

theorem ite {c : Prop} [Decidable c] {a b : Code} (ha : Still q g t a) (hb : Still q g t b) :
    Still q g t (if c then a else b) := by
  split
  · exact ha
  · exact hb

theorem poll {p : Data → Bool} (ht : l.tid = t) (hl : g.ahead l = false) (hk : Still q g t k) :
    Still q g t (Parlour.poll t' c p l k) :=
  look fun _ => ite (lock (condWait (unlock (goto ht hl)))) hk

theorem watch {p : Data → Bool} (ht : l.tid = t) (hl : g.ahead l = false) (hk : Still q g t k) :
    Still q g t (Parlour.watch t' c m p l k) :=
  look fun _ => ite (condWait (goto ht hl)) hk

theorem say {f : Data → Data} (hf : ∀ d, g.counter (f d) = g.counter d) (hk : Still q g t k) :
    Still q g t (Parlour.say i x f k) := by
  apply update _ hk
  intro d
  rw [← hf d]
  cases g <;> rfl

theorem counter (g : Gate) : Still q g .counter counter :=
  update (fun _ => by cases g <;> rfl) <| signal (fun _ => by cases g <;> rfl) <|
  goto rfl (by cases g <;> rfl)

theorem starts (g : Gate) (i : Nat) : Still q g (.machine i) (starts q i) :=
  watch rfl (by cases g <;> rfl) <| unlock <| lock <| goto rfl (by cases g <;> rfl)

theorem stops (g : Gate) (i : Nat) : Still q g (.machine i) (stops q i) :=
  watch rfl (by cases g <;> rfl) <| unlock returns

theorem storeCind (hk : Still q g t k) : Still q g t (Parlour.storeCind i v k) :=
  update (fun _ => by cases g <;> rfl) hk

theorem storeSpawned (hk : Still q g t k) : Still q g t (Parlour.storeSpawned i v k) :=
  update (fun _ => by cases g <;> rfl) hk

theorem advance (hk : Still q g t k) : Still q g t (Parlour.advance i k) := look fun _ => storeCind hk

theorem vacate (hk : Still q g t k) : Still q g t (Parlour.vacate i k) := look fun _ => storeSpawned hk

theorem exclude (hk : Still q g t k) : Still q g t (Parlour.exclude i k) :=
  update (fun _ => by cases g <;> rfl) hk

theorem leave : Still q g t (Parlour.leave i m) := unlock returns

theorem goAway : Still q g t (Parlour.goAway i) :=
  lock <| say (fun _ => by cases g <;> rfl) <| advance <| vacate <| exclude leave

theorem refuse : Still q g t (Parlour.refuse q i) :=
  say (fun _ => by cases g <;> rfl) <| update (fun _ => by cases g <;> rfl) <| vacate <| advance <|
  exclude leave

theorem give : Still q g (.arrival i) (Parlour.give i want) :=
  update (fun _ => by cases g <;> rfl) <| unlock <| broadcast <| lock <| advance <|
  goto rfl (by cases g <;> rfl)

theorem tally {k : Map → Code} (hk : ∀ want, Still q g t (k want)) :
    Still q g t (Parlour.tally i l want k) := by
  induction l generalizing want with
  | nil => exact hk want
  | cons x l ih => exact lock (unlock ih)

theorem order : Still q g (.arrival i) (Parlour.order q i) :=
  lock <| unlock <| tally fun _ => lock <| look fun _ => ite give refuse

theorem room : Still q g (.arrival i) (Parlour.room q i) := by
  apply act
  · intro s s' h
    injection h with h
    rw [← h]
    cases g <;> rfl
  · exact fun _ => ite order goAway

theorem comes (g : Gate) (i : Nat) : Still q g (.arrival i) (comes q i) :=
  watch rfl (by cases g <;> rfl) <| unlock <| update (fun _ => by cases g <;> rfl) room

theorem collects (g : Gate) (i : Nat) : Still q g (.arrival i) (collects q i) :=
  watch rfl (by cases g <;> rfl) <| vacate leave

theorem claim : Still q g (.queue j) (Parlour.claim j i) :=
  update (fun _ => by cases g <;> rfl) <| unlock <| goto rfl (by cases g <;> rfl)

theorem seek (g : Gate) (j i : Nat) : Still q g (.queue j) (seek q j i) := by
  have hgo (i : Nat) : Still q g (.queue j) (.goto (.seek j i)) := goto rfl (by cases g <;> rfl)
  apply ite
  · exact lock <| look fun _ => look fun _ => ite claim <| unlock <| hgo (i + 1)
  · exact lock <| condWait <| unlock <| hgo 0

theorem prepare (g : Gate) (j i : Nat) : Still q g (.queue j) (prepare q j i) := by
  refine poll rfl (by cases g <;> rfl) ?_
  apply act
  · intro s s' h
    injection h with h
    rw [← h]
    cases g <;> rfl
  · exact fun _ => goto rfl (by cases g <;> rfl)

theorem deliver : Still q g t (Parlour.deliver j) :=
  unlock <| signal (fun _ => by cases g <;> rfl) returns

theorem completes : Still q g t (Parlour.completes q j i curr rank) := by
  apply act
  · intro s s' h
    injection h with h
    rw [← h]
    cases g <;> rfl
  · intro s
    apply look
    intro d
    exact ite (say (fun _ => by cases g <;> rfl) deliver) (update (fun _ => by cases g <;> rfl) deliver)

theorem make (g : Gate) (j i : Nat) (curr : Int) : Still q g (.queue j) (make q j i curr) := by
  refine poll rfl (by cases g <;> rfl) ?_
  apply lock
  apply update (fun _ => by cases g <;> rfl)
  apply act
  · intro s s' h
    injection h with h
    rw [← h]
    cases g <;> rfl
  · exact fun _ => completes

theorem exits (g : Gate) : Still q g .exit (exits q) :=
  watch rfl (by cases g <;> rfl) <| unlock <| goto rfl (by cases g <;> rfl)

theorem examine (g : Gate) (i : Nat) : Still q g .exit (examine q i) := by
  have hgo : Still q g .exit (.goto (.close (i + 1))) := goto rfl (by cases g <;> rfl)
  apply act
  · intro s s' h
    injection h with h
    rw [← h]
    split <;> cases g <;> rfl
  · exact fun _ => ite (say (fun _ => rfl) hgo) hgo

theorem close (g : Gate) (i : Nat) : Still q g .exit (close q i) := ite (examine g i) returns

/-- Each gate is of no concern to the code at the other. -/
theorem gate (i : Nat) : Still q .icecreams (.arrival i) (gate i) :=
  poll rfl rfl <| lock <| update (fun _ => rfl) <| unlock <| signal (fun _ => rfl) <| lock <| goto rfl rfl

theorem turn (j : Nat) : Still q .customers (.queue j) (turn q j) :=
  poll rfl rfl <| lock <| update (fun _ => rfl) <| unlock <| signal (fun _ => rfl) <| look fun _ =>
  ite returns (goto rfl rfl)

theorem allocated (j : Nat) : Still q .customers (.queue j) (allocated q j) := poll rfl rfl (goto rfl rfl)

/-- The code that does not lead to the gate leaves its counter alone. -/
theorem body (g : Gate) (h : l.tid = t ∧ g.ahead l = false) : Still q g t (body q t l) := by
  obtain ⟨rfl, hl⟩ := h
  cases l with
  | tick => exact counter g
  | starts i => exact starts g i
  | stops i => exact stops g i
  | gate i =>
    cases g with
    | customers => cases hl
    | icecreams => exact gate i
  | comes i => exact comes g i
  | collects i => exact collects g i
  | allocated j =>
    cases g with
    | customers => exact allocated j
    | icecreams => cases hl
  | turn j =>
    cases g with
    | customers => exact turn j
    | icecreams => cases hl
  | seek j i => exact seek g j i
  | prepare j i => exact prepare g j i
  | make j i curr => exact make g j i curr
  | exits => exact exits g
  | close i => exact close g i

theorem onward (g : Gate) (i : Nat) : Still q g (g.thread i) (g.onward q i) := by
  cases g with
  | customers => exact unlock <| signal (fun _ => rfl) <| lock <| goto rfl rfl
  | icecreams => exact unlock <| signal (fun _ => rfl) <| look fun _ => ite returns (goto rfl rfl)

end Still

/-- Code of thread `i` that leads to the gate. -/
abbrev Nearing (q : Config) (g : Gate) (i : Nat) (k : Code) : Prop :=
  Prog.Nears (g.index q).count ((g.index q).before i) ((g.index q).test i) k

namespace Nearing

variable {k : Code} {i : Nat}

theorem guarded {c : Memory → Prop} [DecidablePred c] {f : Memory → Memory} (hf : ∀ s, (f s).data = s.data)
    (hk : Nearing q g i k) : Nearing q g i (.act (fun s => if c s then some (f s) else none) fun _ => k) := by
  apply Prog.Nears.act
  · intro s s' h
    split at h
    · injection h with h
      subst h
      exact congrArg g.counter (hf s)
    · cases h
  · exact fun _ => hk

theorem blocked (hk : Nearing q g i k) : Nearing q g i (lock t .mutex <| condWait t c .mutex <|
    unlock t .mutex k) := by
  have hlock : Nearing q g i (lock t .mutex <| unlock t .mutex k) :=
    guarded (fun _ => rfl) (guarded (fun _ => rfl) hk)
  refine guarded (fun _ => rfl) (guarded (fun _ => rfl) (.pick fun w => ?_))
  cases w with
  | true =>
    apply Prog.Nears.act
    · intro s s' h
      injection h with h
      subst h
      rfl
    · exact fun _ => hlock
  | false => exact guarded (fun _ => rfl) hlock

theorem shut (g : Gate) (i : Nat) : Nearing q g i (g.shut i) := by
  apply blocked
  apply Prog.Nears.goto
  cases g <;> exact ⟨rfl, rfl⟩

theorem allocated (j : Nat) : Nearing q .icecreams j (allocated q j) := by
  have hturn : Nearing q .icecreams j (.goto (.turn j)) := .goto ⟨rfl, rfl⟩
  apply Prog.Nears.act
  · intro s s' h
    injection h with h
    rw [h]
  · intro s
    dsimp only
    split
    · exact blocked (.goto ⟨rfl, rfl⟩)
    · exact hturn

theorem body (g : Gate) (h : l.tid = g.thread i ∧ g.ahead l = true) :
    Nearing q g i (body q (g.thread i) l) := by
  obtain ⟨ht, hl⟩ := h
  cases g with
  | customers =>
    cases l <;> cases hl
    injection ht with ht
    subst ht
    rw [Nearing, Gate.test_customers]
    exact .test
  | icecreams =>
    cases l <;> cases hl <;> injection ht with ht <;> subst ht
    · exact allocated _
    · rw [Nearing, Gate.test_icecreams]
      exact .test

end Nearing

end Parlour

end PbsCow

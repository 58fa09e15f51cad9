import PbsCow.Smp
import PbsCow.Pick

namespace PbsCow
set_option autoImplicit true

variable {C : Type}

/-- Where `swtch` can take process `p`: it holds its lock there. -/
def Label.Entry (p : Slot) : Label → Prop
  | .forkret q => q = p
  | .yielded q _ => q = p
  | .slept q _ => q = p
  | .dead q => q = p
  | _ => False

/-- The process locks that CPU `c` holds are those of the slots in `l`. -/
def Kmem.Holds (s : Kmem C) (c : C) (l : List Slot) : Prop :=
  ∀ i, s.lock (.proc i) = some c ↔ i ∈ l

/-- What code that holds the process lock `h` may do without taking or dropping a process lock: it
changes the state of no other process, and leaves the schedulers alone. -/
structure Local (c : C) (h : Option Slot) (s s' : Kmem C) : Prop where
  lock : ∀ i, s'.lock (.proc i) = s.lock (.proc i)
  spin : ∀ c', c' ≠ c → s'.spin c' = s.spin c'
  own : ∀ i, s'.spin c = some (.proc i) → s.spin c = some (.proc i)
  saved : s'.saved = s.saved
  saw : s'.saw = s.saw
  context : ∀ i, s'.context i = s.context i ∨ (s'.context i).Entry i
  state : ∀ i, h ≠ some i → (s'.proc i).state = (s.proc i).state

structure LockInv (s : Kmem C) : Prop where
  order : ∀ c i j, s.spin c = some (.proc i) → s.lock (.proc j) = some c → j < i
  two : ∀ c, ∃ i j, ∀ p, s.lock (.proc p) = some c → p = i ∨ p = j
  context : ∀ i, (s.context i).Entry i

/-- What a step of CPU `c` leaves alone. -/
structure LockGuar (c : C) (s s' : Kmem C) : Prop where
  lock : ∀ i c', c' ≠ c → (s'.lock (.proc i) = some c' ↔ s.lock (.proc i) = some c')
  saved : ∀ c', c' ≠ c → s'.saved c' = s.saved c'
  saw : ∀ c', c' ≠ c → s'.saw c' = s.saw c'
  state : ∀ i, s.lock (.proc i) ≠ some c → (s'.proc i).state = (s.proc i).state

/-- What CPU `c` knows: the process locks that it holds, those of them that its scan found runnable,
and whose code it runs. -/
structure Own (c : C) (l good : List Slot) (me : Option Slot) (s : Kmem C) : Prop where
  holds : s.Holds c l
  runnable : ∀ i ∈ good, i ∈ l ∧ (s.proc i).state = .RUNNABLE
  saved : ∀ p, me = some p → s.saved c = .back p
  saw : me = none → s.saw c = !good.isEmpty

def lockContract : Contract C (Kmem C) Label where
  inv := LockInv
  guar := LockGuar
  pre c
    | .scan l => fun s => l.Pairwise (· < ·) ∧ Own c [] [] none s
    | .chosen h => Own c h.toList h.toList none
    | .back h => Own c [h] [] (some h)
    | .point p _ => Own c [] [] (some p)
    | .forkret p => Own c [p] [] (some p)
    | .yielded p _ => Own c [p] [] (some p)
    | .slept p _ => Own c [p] [] (some p)
    | .dead p => Own c [p] [] (some p)
  post _ _ := True

/-- CPU `c` keeps the lock contract, whatever it does. -/
abbrev LockOk (c : C) (k : Code C) (s : Kmem C) : Prop :=
  lockContract.Ok (fun _ _ _ => True) c k s

theorem LockGuar.refl (c : C) (s : Kmem C) : LockGuar c s s :=
  ⟨fun _ _ _ => Iff.rfl, fun _ _ => rfl, fun _ _ => rfl, fun _ _ => rfl⟩

theorem Own.stable (c : C) (l good : List Slot) (me : Option Slot) :
    lockContract.Stable c (Own c l good me) := by
  rintro s s' h ⟨_, _, c', hc, hg⟩
  have hl (i : Slot) : s'.lock (.proc i) = some c ↔ s.lock (.proc i) = some c :=
    hg.lock i c fun he => hc he.symm
  have hst (i : Slot) (hi : i ∈ l) : (s'.proc i).state = (s.proc i).state := by
    refine hg.state i ?_
    rw [(h.holds i).2 hi]
    intro he
    injection he with he
    exact hc he.symm
  refine ⟨fun i => (hl i).trans (h.holds i), fun i hi => ?_, fun p hp => ?_, fun hn => ?_⟩
  · obtain ⟨hil, hr⟩ := h.runnable i hi
    exact ⟨hil, (hst i hil).trans hr⟩
  · exact (hg.saved c fun he => hc he.symm).trans (h.saved p hp)
  · exact (hg.saw c fun he => hc he.symm).trans (h.saw hn)

theorem Local.guar {c : C} {s s' : Kmem C} (h : Local c q s s')
    (hq : ∀ i, q = some i → s.lock (.proc i) = some c) : LockGuar c s s' := by
  refine ⟨fun i c' _ => by rw [h.lock i], fun c' _ => by rw [h.saved], fun c' _ => by rw [h.saw],
    fun i hi => h.state i fun he => hi (hq i he)⟩

theorem Local.inv {c : C} {s s' : Kmem C} (h : Local c q s s') (hi : LockInv s) : LockInv s' := by
  refine ⟨fun c' i j hs hj => ?_, fun c' => ?_, fun i => ?_⟩
  · rw [h.lock j] at hj
    by_cases hc : c' = c
    · subst hc
      exact hi.order c' i j (h.own i hs) hj
    · rw [h.spin c' hc] at hs
      exact hi.order c' i j hs hj
  · obtain ⟨i, j, hij⟩ := hi.two c'
    exact ⟨i, j, fun p hp => hij p (by rwa [h.lock p] at hp)⟩
  · rcases h.context i with hc | hc
    · rw [hc]
      exact hi.context i
    · exact hc

theorem Local.own_of {c : C} {s s' : Kmem C} (h : Local c q s s') (ho : Own c l good me s)
    (hg : ∀ i ∈ good, q ≠ some i) : Own c l good me s' := by
  refine ⟨fun i => by rw [h.lock i]; exact ho.holds i, fun i hi => ?_, fun p hp => ?_, fun hn => ?_⟩
  · obtain ⟨hil, hr⟩ := ho.runnable i hi
    exact ⟨hil, (h.state i (hg i hi)).trans hr⟩
  · rw [h.saved]
    exact ho.saved p hp
  · rw [h.saw]
    exact ho.saw hn

theorem LockOk.local {f : Kmem C → Option (Kmem C)} (ho : Own c l good me s)
    (hf : ∀ s s', f s = some s' → Local c q s s') (hq : ∀ i, q = some i → i ∈ l ∧ i ∉ good)
    (hk : ∀ s s', Own c l good me s' → LockOk c (k s) s') : LockOk c (.act f k) s := by
  refine .act (Own.stable c l good me) ho fun s s' hi ho hs => ?_
  have hl := hf s s' hs
  refine ⟨hl.inv hi, hl.guar fun i hi => (ho.holds i).2 (hq i hi).1, hk s s' (hl.own_of ho ?_)⟩
  intro i hig hqi
  exact (hq i hqi).2 hig

theorem LockOk.read {k : Kmem C → Code C} (ho : Own c l good me s)
    (hk : ∀ s, Own c l good me s → LockOk c (k s) s) : LockOk c (.read k) s :=
  Contract.Ok.read (LockGuar.refl c) (Own.stable c l good me) ho fun s _ ho => hk s ho

theorem Own.only {s : Kmem C} (ho : Own c l good me s) (hg : ∀ i ∈ good', i ∈ good)
    (he : good'.isEmpty = good.isEmpty) : Own c l good' me s :=
  ⟨ho.holds, fun i hi => ho.runnable i (hg i hi), ho.saved, fun hn => he ▸ ho.saw hn⟩

theorem Local.refresh (i : Slot) (s : Kmem C) : Local c none s (Smp.refresh i s) := by
  refine ⟨fun _ => rfl, fun _ _ => rfl, fun _ h => h, rfl, rfl, fun _ => .inl rfl, fun j _ => ?_⟩
  by_cases hj : j = i
  · subst hj
    rw [Smp.refresh, Kmem.setProc_self]
    exact (s.proc j).refresh_state
  · rw [Smp.refresh, s.setProc_of_ne hj]

theorem LockOk.refresh {s : Kmem C} (ho : Own c l good me s)
    (hk : ∀ s, Own c l good me s → LockOk c k s) : LockOk c (.modify (Smp.refresh i) k) s := by
  refine .local (q := none) ho (fun s s' hf => ?_) (by simp) fun _ s' => hk s'
  injection hf with hf
  exact hf ▸ .refresh i s

variable [DecidableEq C]

/-- Code of process `p` that holds one process lock at a time, and now holds `h`. Apart from that it is
any code. -/
inductive Modest (c : C) (p : Slot) : Option Slot → Code C → Prop
  | ret : Modest c p h .ret
  | goto : Modest c p none (.goto (.point p q))
  | act (hf : ∀ s s', f s = some s' → Local c h s s') (hk : ∀ s, Modest c p h (k s)) :
      Modest c p h (.act f k)
  | pick (hk : ∀ w, Modest c p h (k w)) : Modest c p h (.pick k)
  | acquire (hk : Modest c p (some i) k) : Modest c p none (Smp.acquire c (.proc i) k)
  | release (hk : Modest c p none k) : Modest c p (some i) (Smp.release c (.proc i) k)
  | sched (hl : l.Entry p) : Modest c p (some p) (Smp.sched c p l)

/-- The code of the processes, wherever they are. -/
structure ModestKernel (other : C → Label → Code C) : Prop where
  point : ∀ c p q, Modest c p none (other c (.point p q))
  entry : ∀ c p l, l.Entry p → Modest c p (some p) (other c l)

theorem LockOk.acquire {s : Kmem C} (ho : Own c l good me s) (hl : ∀ j ∈ l, j < i)
    (h2 : l.length ≤ 1) (hk : ∀ s, Own c (i :: l) good me s → LockOk c k s) :
    LockOk c (Smp.acquire c (.proc i) k) s := by
  refine .modify (Own.stable c l good me) ho fun s hi ho => ⟨?_, ?_, ?_⟩
  · refine ⟨fun c' a j hs hj => ?_, hi.two, hi.context⟩
    by_cases hc : c' = c
    · subst hc
      simp only [Function.update_self, Option.some.injEq, Lock.proc.injEq] at hs
      exact hs ▸ hl j ((ho.holds j).1 hj)
    · simp only [Function.update_of_ne hc] at hs
      exact hi.order c' a j hs hj
  · exact ⟨fun _ _ _ => Iff.rfl, fun _ _ => rfl, fun _ _ => rfl, fun _ _ => rfl⟩
  · refine .act (Own.stable c l good me) ⟨ho.holds, ho.runnable, ho.saved, ho.saw⟩ fun s s' hi ho hf => ?_
    split at hf
    case isFalse => cases hf
    case isTrue hfree =>
      injection hf with hf
      subst hf
      have hlock (j : Slot) (c' : C) : Function.update s.lock (.proc i) (some c) (.proc j) = some c' ↔
          s.lock (.proc j) = some c' ∨ j = i ∧ c' = c := by
        rw [owner_take hfree, Lock.proc.injEq]
      refine ⟨⟨fun c' a j hs hj => ?_, fun c' => ?_, hi.context⟩, ⟨fun j c' hc => ?_, fun _ _ => rfl,
        fun _ _ => rfl, fun _ _ => rfl⟩, hk _ ⟨fun j => ?_, fun j hj => ?_, ho.saved, ho.saw⟩⟩
      · dsimp only at hs hj
        by_cases hc : c' = c
        · simp [hc] at hs
        · rw [Function.update_of_ne hc] at hs
          rw [hlock] at hj
          exact hi.order c' a j hs (hj.resolve_right fun h => hc h.2)
      · by_cases hc : c' = c
        · subst hc
          obtain ⟨a, ha⟩ : ∃ a, ∀ j ∈ l, j = a := by
            cases l with
            | nil => exact ⟨i, by simp⟩
            | cons b l =>
              have : l = [] := by simpa using h2
              exact ⟨b, by simp [this]⟩
          refine ⟨i, a, fun j hj => ?_⟩
          rw [hlock] at hj
          rcases hj with hj | ⟨rfl, _⟩
          · exact .inr (ha j ((ho.holds j).1 hj))
          · exact .inl rfl
        · obtain ⟨a, b, hab⟩ := hi.two c'
          refine ⟨a, b, fun j hj => ?_⟩
          rw [hlock] at hj
          exact hab j (hj.resolve_right fun h => hc h.2)
      · dsimp only
        rw [hlock]
        simp [hc]
      · dsimp only
        rw [hlock, ho.holds j, List.mem_cons]
        simp [or_comm]
      · obtain ⟨hjl, hr⟩ := ho.runnable j hj
        exact ⟨List.mem_cons_of_mem i hjl, hr⟩

theorem LockOk.release {s : Kmem C} (l' : List Slot) (ho : Own c l good me s) (hg : i ∉ good)
    (hl : ∀ j, j ∈ l' ↔ j ∈ l ∧ j ≠ i) (hk : ∀ s, Own c l' good me s → LockOk c k s) :
    LockOk c (Smp.release c (.proc i) k) s := by
  refine .act (Own.stable c l good me) ho fun s s' hi ho hf => ?_
  rw [Kmem.release] at hf
  split at hf
  case isFalse => cases hf
  case isTrue hown =>
    injection hf with hf
    subst hf
    have hlock (j : Slot) (c' : C) : Function.update s.lock (.proc i) none (.proc j) = some c' ↔
        s.lock (.proc j) = some c' ∧ j ≠ i := by
      rw [owner_drop, Ne, Lock.proc.injEq]
    refine ⟨⟨fun c' a j hs hj => ?_, fun c' => ?_, hi.context⟩, ⟨fun j c' hc => ?_, fun _ _ => rfl,
        fun _ _ => rfl, fun _ _ => rfl⟩, hk _ ⟨fun j => ?_, fun j hj => ?_, ho.saved, ho.saw⟩⟩
    · rw [hlock] at hj
      exact hi.order c' a j hs hj.1
    · obtain ⟨a, b, hab⟩ := hi.two c'
      exact ⟨a, b, fun j hj => hab j ((hlock j c').1 hj).1⟩
    · dsimp only
      rw [hlock]
      refine ⟨fun h => h.1, fun h => ⟨h, ?_⟩⟩
      rintro rfl
      rw [hown] at h
      injection h with h
      exact hc h.symm
    · dsimp only
      rw [hlock, ho.holds j, hl]
    · obtain ⟨hjl, hr⟩ := ho.runnable j hj
      exact ⟨(hl j).2 ⟨hjl, fun he => hg (he ▸ hj)⟩, hr⟩

/-- Code that holds one process lock at a time keeps the contract. -/
theorem Modest.ok {s : Kmem C} (h : Modest c p q k) (ho : Own c q.toList [] (some p) s) :
    LockOk c k s := by
  induction h generalizing s with
  | ret => exact trivial
  | goto => exact ho
  | act hf hk ih => exact .local ho hf (by simp) fun s s' ho => ih s ho
  | pick hk ih => exact .pick (Own.stable c _ [] (some p)) ho fun s w _ ho => ih w ho
  | acquire hk ih => exact .acquire ho (by simp) (by simp) fun s ho => ih ho
  | release hk ih => exact .release [] ho (by simp) (by simp) fun s ho => ih ho
  | sched hl =>
    refine .act (Own.stable c _ [] (some p)) ho fun s s' hi ho hf => ?_
    split at hf
    case isFalse => cases hf
    case isTrue =>
      injection hf with hf
      subst hf
      refine ⟨⟨hi.order, hi.two, fun i => ?_⟩, ⟨fun _ _ _ => Iff.rfl, fun _ _ => rfl, fun _ _ => rfl,
        fun _ _ => rfl⟩, ?_⟩
      · by_cases hip : i = p
        · subst hip
          simpa using hl
        · simpa [hip] using hi.context i
      · rw [ho.saved p rfl]
        exact ⟨ho.holds, by simp, ho.saved, by simp⟩

/-- The scan takes the locks in the order of the table, and holds that of its candidate. -/
theorem scan_ok {s : Kmem C} (hl : (h :: l).Pairwise (· < ·)) (ho : Own c [h] [h] none s) :
    LockOk c (Smp.scan c l h) s := by
  induction l generalizing h s with
  | nil => exact ho
  | cons p l ih =>
    obtain ⟨hh, hp⟩ := List.pairwise_cons.1 hl
    have hhp : h < p := hh p (by simp)
    have hkeep (s : Kmem C) (ho : Own c [p, h] [h] none s) :
        LockOk c (Smp.release c (.proc p) (Smp.scan c l h)) s := by
      refine .release [h] ho (by simpa using hhp.ne') (fun j => ?_) fun s ho => ih ?_ ho
      · simp only [List.mem_cons, List.not_mem_nil, or_false]
        refine ⟨fun hj => ?_, fun hj => hj.1.resolve_left hj.2⟩
        subst hj
        exact ⟨.inr rfl, hhp.ne⟩
      · exact List.pairwise_cons.2 ⟨fun j hj => hh j (by simp [hj]), (List.pairwise_cons.1 hp).2⟩
    have htake (s : Kmem C) (ho : Own c [p, h] [p, h] none s) :
        LockOk c (Smp.release c (.proc h) (Smp.scan c l p)) s := by
      have hown : Own c [p, h] [p] none s := ho.only (by simp) rfl
      refine .release [p] hown (by simpa using hhp.ne) (fun j => ?_) fun s ho => ih hp ho
      simp only [List.mem_cons, List.not_mem_nil, or_false]
      refine ⟨fun hj => ?_, fun hj => hj.1.resolve_right hj.2⟩
      subst hj
      exact ⟨.inl rfl, hhp.ne'⟩
    rw [Smp.scan]
    refine .refresh ho fun s ho => .acquire ho (by simpa using hhp) (by simp) fun s ho => ?_
    refine .read ho fun s ho => ?_
    split
    case isFalse => exact hkeep s ho
    case isTrue hr =>
      have hboth : Own c [p, h] [p, h] none s := by
        refine ⟨ho.holds, fun i hi => ?_, ho.saved, ho.saw⟩
        rcases List.mem_cons.1 hi with rfl | hi
        · exact ⟨by simp, hr⟩
        · exact ho.runnable i hi
      refine .read hboth fun s ho => ?_
      split
      case isTrue => exact htake s ho
      refine .read ho fun s ho => ?_
      split
      case isTrue => exact htake s ho
      refine .read ho fun s ho => ?_
      split
      case isTrue => exact htake s ho
      exact hkeep s (ho.only (by simp) rfl)

end PbsCow

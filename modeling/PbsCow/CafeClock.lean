import PbsCow.Cafe

namespace PbsCow
set_option autoImplicit true

namespace Cafe

open Pthread

/-- The thread is blocked although its time has come, and no broadcast is pending. -/
def Late (s : Memory) (t : Tid) : Prop :=
  s.waits t = some .cond_sec ∧ s.data.napping = true ∧ s.data.target t ≤ s.data.sec

structure ClockGuar (t : Tid) (s s' : Memory) : Prop where
  awake : ∀ t', t' ≠ t → s.waits t' = none → s'.waits t' = none
  target : ∀ t', t' ≠ t → s'.data.target t' = s.data.target t'

def clockContract : Contract Tid Memory Label where
  inv s := ∀ t, ¬ Late s t
  guar := ClockGuar
  pre t l s := l.tid = t ∧ s.waits t = none
  post _ _ := True

/-- The counter sets `sec` only when nobody is blocked for that time, and a thread enters its wait
only while its time has not come, or before the counter broadcasts. -/
def OnTime (t : Tid) (k : Code) (s : Memory) : Prop :=
  (k = counter → ∀ t', s.waits t' = some .cond_sec → s.data.target t' > s.data.sec + 1) ∧
  ∀ k', k = condWait t .cond_sec .mutex_s k' → s.data.napping = true → s.data.target t > s.data.sec

/-- The thread is not blocked, and keeps the clock's contract. -/
abbrev ClockOk (t : Tid) (k : Code) : Prop :=
  clockContract.Keeps OnTime t (fun s => s.waits t = none) k

/-- A step of thread `t` that is nothing to those who wait for a time. -/
structure Untimed (t : Tid) (s s' : Memory) : Prop where
  waits : ∀ t', s'.waits t' = s.waits t' ∨ s'.waits t' = none ∨ t' = t ∧ s'.waits t ≠ some .cond_sec
  target : s'.data.target = s.data.target
  sec : s'.data.sec = s.data.sec
  napping : s'.data.napping = true → s.data.napping = true

theorem awake_stable (t : Tid) : clockContract.Stable t fun s => s.waits t = none := by
  rintro s s' h ⟨_, _, t', ht, hg⟩
  exact hg.awake t (fun he => ht he.symm) h

theorem Untimed.inv {s s' : Memory} (h : Untimed t s s') (hi : ∀ t, ¬ Late s t) :
    (∀ t, ¬ Late s' t) ∧ ClockGuar t s s' := by
  refine ⟨fun t' hl => ?_, fun t' ht hw => ?_, fun _ _ => by rw [h.target]⟩
  · obtain ⟨hw, hn, hle⟩ := hl
    rw [h.target, h.sec] at hle
    rcases h.waits t' with he | he | ⟨he, hne⟩
    · exact hi t' ⟨he ▸ hw, h.napping hn, hle⟩
    · rw [he] at hw
      cases hw
    · exact hne (he ▸ hw)
  · rcases h.waits t' with he | he | ⟨he, _⟩
    · exact he.trans hw
    · exact he
    · exact (ht he).elim

theorem ClockOk.calm {f : Memory → Option Memory} {k : Memory → Code}
    (hf : ∀ s s', f s = some s' → Untimed t s s' ∧ s'.waits t = s.waits t)
    (hk : ∀ s, ClockOk t (k s)) : ClockOk t (.act f k) := by
  refine Contract.Keeps.calm (awake_stable t) (fun s s' hi hw h => ?_) hk
  obtain ⟨hu, hw'⟩ := hf s s' h
  obtain ⟨hi', hg⟩ := hu.inv hi
  exact ⟨hi', hg, hw'.trans hw⟩

theorem ClockOk.update {f : Data → Data} (hf : ∀ d, (f d).target = d.target ∧ (f d).sec = d.sec ∧
    ((f d).napping = true → d.napping = true)) (hk : ClockOk t k) : ClockOk t (update f k) := by
  refine .calm (fun s s' h => ?_) fun _ => hk
  injection h with h
  subst h
  exact ⟨⟨fun _ => .inl rfl, (hf s.data).1, (hf s.data).2.1, (hf s.data).2.2⟩, rfl⟩

theorem ClockOk.look {k : Data → Code} (hk : ∀ d, ClockOk t (k d)) : ClockOk t (look k) := by
  refine .calm (fun s s' h => ?_) fun s => hk s.data
  injection h with h
  subst h
  exact ⟨⟨fun _ => .inl rfl, rfl, rfl, id⟩, rfl⟩

theorem ClockOk.goto (h : l.tid = t) : ClockOk t (.goto l) := fun _ hs => ⟨h, hs⟩

theorem ClockOk.ret : ClockOk t .ret := fun _ _ => trivial

theorem ClockOk.lock (hk : ClockOk t k) : ClockOk t (lock t m k) := by
  refine .calm (fun s s' h => ?_) fun _ => hk
  split at h
  case isFalse => cases h
  case isTrue =>
    injection h with h
    subst h
    exact ⟨⟨fun _ => .inl rfl, rfl, rfl, id⟩, rfl⟩

theorem ClockOk.unlock (hk : ClockOk t k) : ClockOk t (unlock t m k) := by
  refine .calm (fun s s' h => ?_) fun _ => hk
  split at h
  case isFalse => cases h
  case isTrue =>
    injection h with h
    subst h
    exact ⟨⟨fun _ => .inl rfl, rfl, rfl, id⟩, rfl⟩

theorem ClockOk.broadcast (hk : ClockOk t k) : ClockOk t (broadcast c k) := by
  refine Contract.Keeps.calm (awake_stable t) (fun s s' hi hw h => ?_) fun _ => hk
  injection h with h
  subst h
  have hu : Untimed t s { s with
      waits := fun t => if s.waits t = some c then none else s.waits t } := by
    refine ⟨fun t' => ?_, rfl, rfl, id⟩
    dsimp only
    split
    · exact .inr (.inl rfl)
    · exact .inl rfl
  obtain ⟨hi', hg⟩ := hu.inv hi
  exact ⟨hi', hg, by simp [hw]⟩

theorem ClockOk.semWait {sem : Data → Nat} {set : Nat → Data → Data}
    (hf : ∀ v d, (set v d).target = d.target ∧ (set v d).sec = d.sec ∧ (set v d).napping = d.napping)
    (hk : ClockOk t k) : ClockOk t (semWait sem set k) := by
  refine .calm (fun s s' h => ?_) fun _ => hk
  split at h
  case isFalse => cases h
  case isTrue =>
    injection h with h
    subst h
    obtain ⟨h₁, h₂, h₃⟩ := hf (sem s.data - 1) s.data
    exact ⟨⟨fun _ => .inl rfl, h₁, h₂, fun h => h₃ ▸ h⟩, rfl⟩

/-- A thread that is blocked, or has been woken, takes the mutex again when it goes on. -/
theorem ClockOk.resume (hk : ClockOk t k) : clockContract.Keeps OnTime t (fun _ => True)
    (.pick fun
      | true => .modify (fun s => { s with waits := Function.update s.waits t none })
        (Pthread.lock t m k)
      | false => .act (fun s => if s.waits t = none then some s else none) fun _ =>
        Pthread.lock t m k) := by
  have htrue : clockContract.Stable t fun _ => True := fun _ _ _ _ => trivial
  refine .pick htrue fun w => ?_
  cases w with
  | true =>
    refine .act htrue fun s s' hi _ _ h => ?_
    injection h with h
    subst h
    have hu : Untimed t s { s with waits := Function.update s.waits t none } := by
      refine ⟨fun t' => ?_, rfl, rfl, id⟩
      by_cases ht : t' = t
      · subst ht
        exact .inr (.inl (Function.update_self ..))
      · exact .inl (Function.update_of_ne ht _ _)
    obtain ⟨hi', hg⟩ := hu.inv hi
    exact ⟨hi', hg, ClockOk.lock hk { s with waits := Function.update s.waits t none } (by simp)⟩
  | false =>
    refine .act htrue fun s s' hi _ _ h => ?_
    split at h
    case isFalse => cases h
    case isTrue hw =>
      injection h with h
      subst h
      exact ⟨hi, ⟨fun _ _ h => h, fun _ _ => rfl⟩, ClockOk.lock hk s hw⟩

theorem ClockOk.condWait (hc : c ≠ .cond_sec) (hk : ClockOk t k) : ClockOk t (condWait t c m k) := by
  refine Contract.Keeps.act (awake_stable t) fun s s' hi hw _ h => ?_
  split at h
  case isFalse => cases h
  case isTrue =>
    injection h with h
    subst h
    have hu : Untimed t s { s with
        owner := Function.update s.owner m none, waits := Function.update s.waits t (some c) } := by
      refine ⟨fun t' => ?_, rfl, rfl, id⟩
      by_cases ht : t' = t
      · refine .inr (.inr ⟨ht, ?_⟩)
        simpa using hc
      · exact .inl (Function.update_of_ne ht _ _)
    obtain ⟨hi', hg⟩ := hu.inv hi
    exact ⟨hi', hg, ClockOk.resume hk _ trivial⟩

/-- A thread that blocks on time is not late. -/
theorem ClockOk.block (hk : ClockOk t k) : ClockOk t (block t time k) := by
  refine Contract.Keeps.act (awake_stable t) fun s s' hi hw _ h => ?_
  injection h with h
  subst h
  refine ⟨fun t' hl => ?_, ⟨fun _ _ h => h, fun t' ht => Function.update_of_ne ht _ _⟩, ?_⟩
  · have ht : t' ≠ t := by
      rintro rfl
      exact absurd (hw.symm.trans hl.1) (by simp)
    refine hi t' ⟨hl.1, hl.2.1, ?_⟩
    have := hl.2.2
    dsimp only at this
    rwa [Function.update_of_ne ht] at this
  · refine ⟨_, awake_stable t, hw, fun s s' hi hw hd h => ?_⟩
    dsimp only at h
    split at h
    case isFalse => cases h
    case isTrue =>
      injection h with h
      subst h
      refine ⟨fun t' hl => ?_, ⟨fun t' ht h => ?_, fun _ _ => rfl⟩, ClockOk.resume hk _ trivial⟩
      · by_cases ht : t' = t
        · subst ht
          exact absurd (hd.2 _ rfl hl.2.1) (Int.not_lt.2 hl.2.2)
        · refine hi t' ⟨?_, hl.2⟩
          have := hl.1
          dsimp only at this
          rwa [Function.update_of_ne ht] at this
      · exact (Function.update_of_ne ht _ _).trans h

theorem ClockOk.ite {p : Prop} [Decidable p] (ha : ClockOk t a) (hb : ClockOk t b) :
    ClockOk t (if p then a else b) := Contract.Keeps.ite ha hb

theorem ClockOk.pause (hl : l.tid = t) (hk : ClockOk t k) : ClockOk t (pause t time l k) :=
  .look fun _ => .ite (.lock (.block (.unlock (.goto hl)))) hk

/-- The counter does not let a time pass for which somebody is blocked. -/
theorem ClockOk.counter : ClockOk .counter counter := by
  refine Contract.Keeps.act (awake_stable _) fun s s' hi hw hd h => ?_
  injection h with h
  subst h
  refine ⟨fun t' hl => ?_, ⟨fun _ _ h => h, fun _ _ => rfl⟩, ?_⟩
  · have := hd.1 rfl t' hl.1
    exact absurd hl.2.2 (Int.not_le.2 this)
  · have hk : ClockOk .counter (Pthread.update (fun d => { d with napping := false })
        (Pthread.broadcast .cond_sec (.goto .tick))) :=
      .update (fun d => ⟨rfl, rfl, by simp⟩) (.broadcast (.goto rfl))
    exact hk _ hw

/-- A write to data that has nothing to do with time. -/
theorem ClockOk.write {f : Data → Data}
    (hf : ∀ d, ((f d).target, (f d).sec, (f d).napping) = (d.target, d.sec, d.napping))
    (hk : ClockOk t k) : ClockOk t (Pthread.update f k) := by
  simp only [Prod.mk.injEq] at hf
  exact .update (fun d => ⟨(hf d).1, (hf d).2.1, fun h => (hf d).2.2 ▸ h⟩) hk

theorem ClockOk.returns : ClockOk t (returns i) := .write (fun _ => rfl) .ret

theorem ClockOk.finish : ClockOk t (finish i got) :=
  .semWait (fun _ _ => ⟨rfl, rfl, rfl⟩) (.write (fun _ => rfl) (.write (fun _ => rfl)
    (.write (fun _ => rfl) (.write (fun _ => rfl) (.write (fun _ => rfl) (.broadcast .returns))))))

theorem ClockOk.serve (q : Config) : ClockOk (.customer i) (serve q i arrival got) :=
  .ite (.lock (.write (fun _ => rfl) (.unlock (.goto rfl))))
    (.lock (.look fun _ => .ite (.write (fun _ => rfl) (.goto rfl)) (.unlock (.goto rfl))))

theorem ClockOk.turn : ClockOk (.arrival i) (turn i) :=
  .look fun _ => .ite (.condWait (by simp) (.goto rfl)) (.unlock (.goto rfl))

theorem ClockOk.gate : ClockOk (.customer i) (gate i) :=
  .look fun _ => .ite (.condWait (by simp) (.goto rfl))
    (.unlock (.semWait (fun _ _ => ⟨rfl, rfl, rfl⟩) (.goto rfl)))

theorem ClockOk.leave (q : Config) : ClockOk (.customer i) (leave q i arrival got) :=
  .look fun _ => .ite (.block (.goto rfl)) (.write (fun _ => rfl) (.unlock (.goto rfl)))

theorem clock_sound (q : Config) : clockContract.Sound OnTime (body q) := by
  refine ⟨fun _ _ => ⟨fun _ _ h => h, fun _ _ => rfl⟩, fun t l => ?_, fun _ _ _ _ _ => trivial,
    fun t l s _ h _ => ?_⟩
  · exact .and (fun _ _ h _ => h) (awake_stable t)
  · obtain ⟨rfl, hw⟩ := h
    suffices hk : ClockOk l.tid (body q l.tid l) from hk s hw
    cases l with
    | tick => exact .counter
    | turn i => exact .turn
    | announce i => exact .pause rfl (.lock (.write (fun _ => rfl) (.unlock (.broadcast .ret))))
    | handler i => exact .lock (.goto rfl)
    | gate i => exact .gate
    | arrive i => exact .pause rfl (.look fun _ => .goto rfl)
    | search i arrival j =>
      exact .lock (.look fun _ => .ite (.write (fun _ => rfl) (.unlock (.goto rfl))) (.unlock (.goto rfl)))
    | begins i arrival got =>
      exact .pause rfl (.lock (.write (fun _ => rfl) (.unlock (.look fun _ => .ite .returns
        (.look fun _ => .ite .returns (.serve q))))))
    | make i arrival got => exact .pause rfl (.write (fun _ => rfl) .finish)
    | leave i arrival got => exact .leave q
    | waste i arrival got => exact .pause rfl (.lock (.write (fun _ => rfl) (.unlock .finish)))
    | exited i =>
      exact .pause rfl (.lock (.look fun _ => .ite
        (.write (fun _ => rfl) (.write (fun _ => rfl) (.unlock .ret))) (.unlock .ret)))

/-- One barista, and a customer who leaves after one second. -/
def short : Config := ⟨1, [("Espresso", 3)], [⟨1, "Espresso", 0, 0⟩], by decide⟩

end Cafe

end PbsCow

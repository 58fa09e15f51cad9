import PbsCow.CafeClock
import PbsCow.Lib.Counting

namespace PbsCow
set_option autoImplicit true

namespace Cafe

open Pthread

/-- The handler runs between its `sem_wait` and its `sem_post`. -/
def Log.inside (l : Log) : Bool := l.waited && l.posts == 0 && !l.returned

/-- The handler runs and has chosen a barista whose flag it has not reset. -/
def Log.busy (l : Log) : Bool := l.got.isSome && l.resets == 0 && !l.returned

/-- The handler has taken the semaphore and not given it back, though it may have returned. -/
def Log.kept (l : Log) : Bool := l.waited && l.posts == 0

/-- The handler has chosen a barista whose flag it has not reset, though it may have returned. -/
def Log.holds (l : Log) : Bool := l.got.isSome && l.resets == 0

/-- The last field is for runs in which no handler returns early, if `P`. -/
structure BaristaInv (P : Prop) (q : Config) (s : Memory) : Prop where
  semaphore : s.data.semaphore + countBelow q.n (fun i => (s.data.log i).kept) = q.b
  flags : countBelow q.b (fun j => s.data.barber j = 1) =
    countBelow q.n fun i => (s.data.log i).holds
  values : ∀ j, s.data.barber j = 0 ∨ s.data.barber j = 1
  kept : ∀ i, (s.data.log i).holds = true → (s.data.log i).kept = true
  got : ∀ i j, (s.data.log i).holds = true → (s.data.log i).got = some j → s.data.barber j = 1
  apart : ∀ i i' j, (s.data.log i).holds = true → (s.data.log i').holds = true →
    (s.data.log i).got = some j → (s.data.log i').got = some j → i = i'
  returned : P → ∀ i, (s.data.log i).returned = true →
    (s.data.log i).spawns = 1 ∧ (s.data.log i).resets = 1 ∧ (s.data.log i).posts = 1

structure BaristaGuar (t : Tid) (s s' : Memory) : Prop where
  owner : ∀ m t', t' ≠ t → (s'.owner m = some t' ↔ s.owner m = some t')
  log : ∀ i, t ≠ .customer i → s'.data.log i = s.data.log i
  barber : s.owner .mutex2 ≠ some t → ∀ j, s'.data.barber j = s.data.barber j ∨ s'.data.barber j = 0

/-- What the handler of customer `i` has done when it waits for its turn, when it has got the
semaphore, and when it has chosen barista `j`. -/
def Log.before : Log := ⟨false, none, 0, 0, 0, false⟩
def Log.served : Log := ⟨true, none, 0, 0, 0, false⟩
def Log.with (j : Nat) : Log := ⟨true, some j, 0, 0, 0, false⟩

def Label.Handles (q : Config) (d : Data) : Label → Prop
  | .handler i => i < q.n ∧ d.log i = .before
  | .gate i => i < q.n ∧ d.log i = .before
  | .arrive i => i < q.n ∧ d.log i = .served
  | .search i _ j => i < q.n ∧ j < q.b ∧ d.log i = .served
  | .begins i _ got => i < q.n ∧ got < q.b ∧ d.log i = .with got
  | .make i _ got => i < q.n ∧ got < q.b ∧ d.log i = .with got
  | .leave i _ got => i < q.n ∧ got < q.b ∧ d.log i = .with got
  | .waste i _ got => i < q.n ∧ got < q.b ∧ d.log i = .with got
  | _ => True

def baristaContract (P : Prop) (q : Config) : Contract Tid Memory Label where
  inv := BaristaInv P q
  guar := BaristaGuar
  pre t l s := l.tid = t ∧ l.Handles q s.data
  post t s := ∀ i, t = .customer i → i < q.n → (s.data.log i).returned = true

/-- No handler finds that its customer has left, or is about to, when it begins the order. -/
def Patient (q : Config) (_ : Tid) (k : Code) (s : Memory) : Prop :=
  ∀ i arrival got, (k = patience q i arrival got → s.data.ex i ≠ 1) ∧
    (k = lastSecond q i arrival got → q.deadline i ≠ s.data.sec)

def PatientIf (P : Prop) (q : Config) (t : Tid) (k : Code) (s : Memory) : Prop := P → Patient q t k s

theorem BaristaGuar.refl (t : Tid) (s : Memory) : BaristaGuar t s s :=
  ⟨fun _ _ _ => Iff.rfl, fun _ _ => rfl, fun _ _ => .inl rfl⟩

/-- A step that has nothing to do with baristas. -/
structure Idle (t : Tid) (s s' : Memory) : Prop where
  owner : ∀ m t', t' ≠ t → (s'.owner m = some t' ↔ s.owner m = some t')
  semaphore : s'.data.semaphore = s.data.semaphore
  barber : s'.data.barber = s.data.barber
  log : s'.data.log = s.data.log

theorem Idle.inv {s s' : Memory} (h : Idle t s s') (hi : BaristaInv P q s) :
    BaristaInv P q s' ∧ BaristaGuar t s s' := by
  refine ⟨⟨?_, ?_, ?_, ?_, ?_, ?_, ?_⟩, h.owner, fun _ _ => by rw [h.log], fun _ _ => .inl (by rw [h.barber])⟩
  · rw [h.semaphore, h.log]
    exact hi.semaphore
  · rw [h.barber, h.log]
    exact hi.flags
  · rw [h.barber]
    exact hi.values
  · rw [h.log]
    exact hi.kept
  · rw [h.barber, h.log]
    exact hi.got
  · rw [h.log]
    exact hi.apart
  · rw [h.log]
    exact hi.returned

/-- A step of the handler of customer `i` that changes its log. -/
structure LogStep (i : Nat) (l : Log) (s s' : Memory) : Prop where
  owner : s'.owner = s.owner
  self : s'.data.log i = l
  log : ∀ j, j ≠ i → s'.data.log j = s.data.log j

theorem LogStep.count {s s' : Memory} (h : LogStep i l s s') (hi : i < n) (p : Log → Bool) :
    countBelow n (fun j => p (s'.data.log j)) + (p (s.data.log i)).toNat =
      countBelow n (fun j => p (s.data.log j)) + (p l).toNat := by
  have := countBelow_change (fun j => p (s.data.log j)) (fun j => p (s'.data.log j)) hi
    fun j hj => by rw [h.log j hj]
  rwa [h.self] at this

theorem LogStep.inv {s s' : Memory} (h : LogStep i l s s') (hi : BaristaInv P q s) (hn : i < q.n)
    (hs : s'.data.semaphore + l.kept.toNat =
      s.data.semaphore + (s.data.log i).kept.toNat)
    (hb : countBelow q.b (fun j => s'.data.barber j = 1) + (s.data.log i).holds.toNat =
      countBelow q.b (fun j => s.data.barber j = 1) + l.holds.toNat)
    (hv : ∀ j, s'.data.barber j = 0 ∨ s'.data.barber j = 1) (hk : l.holds = true → l.kept = true)
    (hg : ∀ j, l.holds = true → l.got = some j → s'.data.barber j = 1)
    (ho : ∀ k j, k ≠ i → (s.data.log k).holds = true → (s.data.log k).got = some j →
      s'.data.barber j = 1 ∧ (l.holds = true → l.got ≠ some j))
    (hr : P → l.returned = true → l.spawns = 1 ∧ l.resets = 1 ∧ l.posts = 1) :
    BaristaInv P q s' := by
  have hin := h.count hn Log.kept
  have hholds := h.count hn Log.holds
  refine ⟨?_, ?_, hv, fun k hkb => ?_, fun k j hkb hj => ?_, fun k k' j hkb hk' hj hj' => ?_,
    fun hP k hret => ?_⟩
  · have := hi.semaphore
    omega
  · have := hi.flags
    omega
  · by_cases hki : k = i
    · rw [hki, h.self] at hkb ⊢
      exact hk hkb
    · rw [h.log k hki] at hkb ⊢
      exact hi.kept k hkb
  · by_cases hki : k = i
    · rw [hki, h.self] at hkb hj
      exact hg j hkb hj
    · rw [h.log k hki] at hkb hj
      exact (ho k j hki hkb hj).1
  · by_cases hki : k = i
    · by_cases hki' : k' = i
      · rw [hki, hki']
      · rw [hki, h.self] at hkb hj
        rw [h.log k' hki'] at hk' hj'
        exact ((ho k' j hki' hk' hj').2 hkb hj).elim
    · rw [h.log k hki] at hkb hj
      by_cases hki' : k' = i
      · rw [hki', h.self] at hk' hj'
        exact ((ho k j hki hkb hj).2 hk' hj').elim
      · rw [h.log k' hki'] at hk' hj'
        exact hi.apart k k' j hkb hk' hj hj'
  · by_cases hki : k = i
    · rw [hki, h.self] at hret ⊢
      exact hr hP hret
    · rw [h.log k hki] at hret ⊢
      exact hi.returned hP k hret

/-- There is a barista for a handler that has the semaphore and has not chosen one. -/
theorem BaristaInv.free {s : Memory} (h : BaristaInv P q s) (hn : i < q.n)
    (hl : s.data.log i = .served) : ∃ j < q.b, s.data.barber j = 0 := by
  have hlt : countBelow q.n (fun i => (s.data.log i).holds) <
      countBelow q.n fun i => (s.data.log i).kept := by
    refine countBelow_lt hn (fun k _ => h.kept k) ?_ ?_
    · rw [hl]
      rfl
    · rw [hl]
      rfl
  have hsem := h.semaphore
  have hflags := h.flags
  obtain ⟨j, hj, hfree⟩ := countBelow_exists (n := q.b) (p := fun j => s.data.barber j = 1) (by omega)
  refine ⟨j, hj, (h.values j).resolve_right ?_⟩
  simpa using hfree

theorem LogStep.guar {s s' : Memory} (h : LogStep i l s s')
    (hb : s.owner .mutex2 ≠ some (.customer i) → ∀ j, s'.data.barber j = s.data.barber j ∨
      s'.data.barber j = 0) : BaristaGuar (.customer i) s s' := by
  refine ⟨fun _ _ _ => by rw [h.owner], fun j hj => h.log j ?_, hb⟩
  rintro rfl
  exact hj rfl

/-- A step that neither takes nor gives a barista. -/
theorem LogStep.same {s s' : Memory} (h : LogStep i l s s') (hi : BaristaInv P q s) (hn : i < q.n)
    (hs : s'.data.semaphore + l.kept.toNat =
      s.data.semaphore + (s.data.log i).kept.toNat)
    (hb : s'.data.barber = s.data.barber) (hl : l.holds = (s.data.log i).holds)
    (hk : l.holds = true → l.kept = true)
    (hg : l.holds = true → l.got = (s.data.log i).got)
    (hr : P → l.returned = true → l.spawns = 1 ∧ l.resets = 1 ∧ l.posts = 1) :
    BaristaInv P q s' ∧ BaristaGuar (.customer i) s s' := by
  refine ⟨h.inv hi hn hs (by rw [hb, hl]) (by rw [hb]; exact hi.values) hk (fun j hj hj' => ?_)
    (fun k j hk hkb hkg => ?_) hr, h.guar fun _ j => .inl (by rw [hb])⟩
  · rw [hb]
    exact hi.got i j (hl ▸ hj) (hg hj ▸ hj')
  · rw [hb]
    refine ⟨hi.got k j hkb hkg, fun hholds hgot => hk ?_⟩
    exact hi.apart k i j hkb (hl ▸ hholds) hkg (hg hholds ▸ hgot)

/-- A flag that is set or reset. -/
theorem BaristaInv.values_update {s : Memory} (hi : BaristaInv P q s) (hv : v = 0 ∨ v = 1) (j k : Nat) :
    Function.update s.data.barber j v k = 0 ∨ Function.update s.data.barber j v k = 1 := by
  by_cases hk : k = j
  · rw [hk, Function.update_self]
    exact hv
  · rw [Function.update_of_ne hk]
    exact hi.values k

/-- The handler takes a barista who is free. -/
theorem LogStep.choose {s s' : Memory} (h : LogStep i (.with j) s s') (hi : BaristaInv P q s)
    (hn : i < q.n) (hj : j < q.b) (hl : s.data.log i = .served) (hf : s.data.barber j = 0)
    (ho : s.owner .mutex2 = some (.customer i)) (hs : s'.data.semaphore = s.data.semaphore)
    (hb : s'.data.barber = Function.update s.data.barber j 1) :
    BaristaInv P q s' ∧ BaristaGuar (.customer i) s s' := by
  refine ⟨h.inv hi hn (by rw [hs, hl]; rfl) ?_ (fun k => by rw [hb]; exact hi.values_update (.inr rfl) j k)
    (fun _ => rfl) (fun j' _ hj' => ?_) (fun k j' _ hk hg => ?_) (by simp [Log.with]),
    h.guar fun hne => (hne ho).elim⟩
  · have := countBelow_change (fun j => s.data.barber j = 1) (fun j => s'.data.barber j = 1) hj
      fun k hk => by rw [hb, Function.update_of_ne hk]
    rw [hb, Function.update_self, hf] at this
    rw [hb, hl]
    simpa [Log.holds, Log.with, Log.served] using this
  · injection hj' with hj'
    rw [hb, ← hj', Function.update_self]
  · have h1 := hi.got k j' hk hg
    have hne : j' ≠ j := by
      rintro rfl
      rw [hf] at h1
      cases h1
    rw [hb, Function.update_of_ne hne]
    refine ⟨h1, fun _ he => ?_⟩
    injection he with he
    exact hne he.symm

/-- The handler gives its barista back. -/
theorem LogStep.reset {s s' : Memory} (h : LogStep i { s.data.log i with
      resets := (s.data.log i).resets + 1 } s s') (hi : BaristaInv P q s)
    (hn : i < q.n) (hj : j < q.b) (hl : (s.data.log i).holds = true)
    (hret : (s.data.log i).returned = false)
    (hg : (s.data.log i).got = some j) (hs : s'.data.semaphore = s.data.semaphore)
    (hb : s'.data.barber = Function.update s.data.barber j 0) :
    BaristaInv P q s' ∧ BaristaGuar (.customer i) s s' := by
  have hidle : Log.holds { s.data.log i with resets := (s.data.log i).resets + 1 } = false := by
    simp [Log.holds]
  refine ⟨h.inv hi hn (by rw [hs]; rfl) ?_ (fun k => by rw [hb]; exact hi.values_update (.inl rfl) j k)
    (fun hh => absurd (hidle.symm.trans hh) (by simp)) (fun _ hj' _ => ?_) (fun k j' hk hkb hkg => ?_)
    (fun _ hr => absurd (hret.symm.trans hr) (by simp)), h.guar fun _ k => ?_⟩
  · have := countBelow_change (fun j => s.data.barber j = 1) (fun j => s'.data.barber j = 1) hj
      fun k hk => by rw [hb, Function.update_of_ne hk]
    rw [hb, Function.update_self, hi.got i j hl hg] at this
    rw [hb, hl, hidle]
    simpa using this
  · rw [hidle] at hj'
    cases hj'
  · have hne : j' ≠ j := by
      rintro rfl
      exact hk (hi.apart k i j' hkb hl hkg hg)
    rw [hb, Function.update_of_ne hne, hidle]
    exact ⟨hi.got k j' hkb hkg, by simp⟩
  · rw [hb]
    by_cases hk : k = j
    · rw [hk, Function.update_self]
      exact .inr rfl
    · exact .inl (Function.update_of_ne hk _ _)

end Cafe

end PbsCow

import PbsCow.Lib.Threads

namespace PbsCow
set_option autoImplicit true

/-- What threads share: who owns a mutex, who is blocked on a condition variable, and their data. -/
structure Shared (τ μ κ δ : Type) where
  owner : μ → Option τ
  waits : τ → Option κ
  data : δ

namespace Pthread

section Operations

variable {τ μ κ δ ℓ : Type} [DecidableEq τ] [DecidableEq μ] [DecidableEq κ]

def lock (t : τ) (m : μ) (k : Prog (Shared τ μ κ δ) Bool ℓ) : Prog (Shared τ μ κ δ) Bool ℓ :=
  .act (fun s => if s.owner m = none then some { s with
    owner := Function.update s.owner m (some t) } else none) fun _ => k

def unlock (t : τ) (m : μ) (k : Prog (Shared τ μ κ δ) Bool ℓ) : Prog (Shared τ μ κ δ) Bool ℓ :=
  .act (fun s => if s.owner m = some t then some { s with
    owner := Function.update s.owner m none } else none) fun _ => k

/-- The thread releases the mutex and blocks in one step. It goes on after a broadcast, or spuriously,
and takes the mutex again. -/
def condWait (t : τ) (c : κ) (m : μ) (k : Prog (Shared τ μ κ δ) Bool ℓ) :
    Prog (Shared τ μ κ δ) Bool ℓ :=
  .act (fun s => if s.owner m = some t then some { s with
    owner := Function.update s.owner m none,
    waits := Function.update s.waits t (some c) } else none) fun _ =>
  .pick fun
    | true => .modify (fun s => { s with waits := Function.update s.waits t none }) (lock t m k)
    | false => .act (fun s => if s.waits t = none then some s else none) fun _ => lock t m k

def broadcast (c : κ) (k : Prog (Shared τ μ κ δ) Bool ℓ) : Prog (Shared τ μ κ δ) Bool ℓ :=
  .modify (fun s => { s with waits := fun t => if s.waits t = some c then none else s.waits t }) k

/-- A step on the data. -/
def update (f : δ → δ) (k : Prog (Shared τ μ κ δ) Bool ℓ) : Prog (Shared τ μ κ δ) Bool ℓ :=
  .modify (fun s => { s with data := f s.data }) k

def look (k : δ → Prog (Shared τ μ κ δ) Bool ℓ) : Prog (Shared τ μ κ δ) Bool ℓ :=
  .read fun s => k s.data

/-- `sem_wait`; `get` and `set` tell where the semaphore is. -/
def semWait (get : δ → Nat) (set : Nat → δ → δ) (k : Prog (Shared τ μ κ δ) Bool ℓ) :
    Prog (Shared τ μ κ δ) Bool ℓ :=
  .act (fun s => if 0 < get s.data then some { s with data := set (get s.data - 1) s.data } else none)
    fun _ => k

def semPost (get : δ → Nat) (set : Nat → δ → δ) (k : Prog (Shared τ μ κ δ) Bool ℓ) :
    Prog (Shared τ μ κ δ) Bool ℓ :=
  update (fun d => set (get d + 1) d) k

end Operations

/-- A step of thread `t` that only locks, unlocks, blocks or wakes. -/
structure SyncStep {τ μ κ δ : Type} (t : τ) (s s' : Shared τ μ κ δ) : Prop where
  data : s'.data = s.data
  owner : ∀ m t', t' ≠ t → (s'.owner m = some t' ↔ s.owner m = some t')

/-- Such a step that blocks nobody. -/
structure LockStep {τ μ κ δ : Type} (t : τ) (s s' : Shared τ μ κ δ) : Prop extends SyncStep t s s' where
  waits : ∀ t', s'.waits t' = s.waits t' ∨ s'.waits t' = none

/-- A contract, and what thread `t` knows, that steps which block nobody leave alone. -/
structure Neutral {τ μ κ δ ℓ : Type} (K : Contract τ (Shared τ μ κ δ) ℓ) (t : τ)
    (P : Shared τ μ κ δ → Prop) : Prop where
  stable : K.Stable t P
  step : ∀ s s', K.inv s → P s → LockStep t s s' → K.inv s' ∧ K.guar t s s' ∧ P s'

/-- A contract, and what thread `t` knows, that have nothing to do with who is blocked. -/
structure Oblivious {τ μ κ δ ℓ : Type} (K : Contract τ (Shared τ μ κ δ) ℓ) (t : τ)
    (P : Shared τ μ κ δ → Prop) : Prop where
  stable : K.Stable t P
  step : ∀ s s', K.inv s → P s → SyncStep t s s' → K.inv s' ∧ K.guar t s s' ∧ P s'

section Rules

variable {τ μ κ δ ℓ : Type} {K : Contract τ (Shared τ μ κ δ) ℓ}
  {D : τ → Prog (Shared τ μ κ δ) Bool ℓ → Shared τ μ κ δ → Prop} {t : τ}
  {P : Shared τ μ κ δ → Prop} {k : Prog (Shared τ μ κ δ) Bool ℓ}

theorem Oblivious.neutral (h : Oblivious K t P) : Neutral K t P :=
  ⟨h.stable, fun s s' hi hp hs => h.step s s' hi hp hs.toSyncStep⟩

theorem LockStep.refl (t : τ) (s : Shared τ μ κ δ) : LockStep t s s :=
  ⟨⟨rfl, fun _ _ _ => Iff.rfl⟩, fun _ => .inl rfl⟩

theorem LockStep.wakes (t : τ) (s : Shared τ μ κ δ) {f : τ → Option κ}
    (h : ∀ t', f t' = s.waits t' ∨ f t' = none) : LockStep t s { s with waits := f } :=
  ⟨⟨rfl, fun _ _ _ => Iff.rfl⟩, h⟩

theorem keeps_look {k : δ → Prog (Shared τ μ κ δ) Bool ℓ} (hP : Neutral K t P)
    (hk : ∀ s, K.inv s → P s → K.Ok D t (k s.data) s) : K.Keeps D t P (look k) := by
  intro s hs
  refine .act hP.stable hs fun s s' hi hp h => ?_
  injection h with h
  subst h
  obtain ⟨hi', hg, _⟩ := hP.step s s hi hp (.refl t s)
  exact ⟨hi', hg, hk s hi hp⟩

theorem keeps_broadcast [DecidableEq κ] (hP : Neutral K t P) (hk : K.Keeps D t P k) :
    K.Keeps D t P (broadcast c k) := by
  refine .calm hP.stable (fun s s' hi hp h => ?_) fun _ => hk
  injection h with h
  refine h ▸ hP.step s _ hi hp (.wakes t s fun t' => ?_)
  split
  · exact .inr rfl
  · exact .inl rfl

variable [DecidableEq μ]

theorem LockStep.lock {s : Shared τ μ κ δ} (h : s.owner m = none) :
    LockStep t s { s with owner := Function.update s.owner m (some t) } := by
  refine ⟨⟨rfl, fun m' t' ht => ?_⟩, fun _ => .inl rfl⟩
  rw [owner_take h]
  simp [ht]

theorem SyncStep.unlock {s : Shared τ μ κ δ} (h : s.owner m = some t) (f : τ → Option κ) :
    SyncStep t s { s with owner := Function.update s.owner m none, waits := f } := by
  refine ⟨rfl, fun m' t' ht => ?_⟩
  rw [owner_drop]
  refine ⟨fun h => h.1, fun h' => ⟨h', ?_⟩⟩
  rintro rfl
  exact ht (Option.some.inj (h'.symm.trans h))

theorem LockStep.unlock {s : Shared τ μ κ δ} (h : s.owner m = some t) :
    LockStep t s { s with owner := Function.update s.owner m none } :=
  ⟨.unlock h s.waits, fun _ => .inl rfl⟩

theorem keeps_lock (hP : Neutral K t P) (hk : K.Keeps D t P k) : K.Keeps D t P (lock t m k) := by
  refine .calm hP.stable (fun s s' hi hp h => ?_) fun _ => hk
  split at h
  case isFalse => cases h
  case isTrue hfree =>
    injection h with h
    exact h ▸ hP.step s _ hi hp (.lock hfree)

/-- The thread knows that it owns the mutex that it has locked. -/
theorem keeps_lock_own (hP : Neutral K t P)
    (hk : K.Keeps D t (fun s => P s ∧ s.owner m = some t) k) : K.Keeps D t P (lock t m k) := by
  refine .act hP.stable fun s s' hi hp _ h => ?_
  split at h
  case isFalse => cases h
  case isTrue hfree =>
    injection h with h
    subst h
    obtain ⟨hi', hg, hp'⟩ := hP.step s _ hi hp (.lock hfree)
    exact ⟨hi', hg, hk _ ⟨hp', by simp⟩⟩

variable [DecidableEq τ]

theorem keeps_unlock (hP : Neutral K t P) (hk : K.Keeps D t P k) :
    K.Keeps D t P (unlock t m k) := by
  refine .calm hP.stable (fun s s' hi hp h => ?_) fun _ => hk
  split at h
  case isFalse => cases h
  case isTrue hown =>
    injection h with h
    exact h ▸ hP.step s _ hi hp (.unlock hown)

/-- A thread that waits knows `B` while it is blocked. -/
theorem keeps_wait [DecidableEq κ] {B Q : Shared τ μ κ δ → Prop} (hP : K.Stable t P)
    (hB : K.Stable t B) (hQ : Neutral K t Q) (hblock : ∀ s, K.inv s → P s → D t (condWait t c m k) s →
      s.owner m = some t → ∀ s', s' = { s with
        owner := Function.update s.owner m none, waits := Function.update s.waits t (some c) } →
      K.inv s' ∧ K.guar t s s' ∧ B s')
    (hwake : ∀ s, K.inv s → B s → ∀ s', s' = { s with waits := Function.update s.waits t none } →
      K.inv s' ∧ K.guar t s s' ∧ Q s')
    (hwoken : ∀ s, K.inv s → B s → s.waits t = none → K.guar t s s ∧ Q s)
    (hk : K.Keeps D t Q k) : K.Keeps D t P (condWait t c m k) := by
  refine .act hP fun s s' hi hp hd h => ?_
  split at h
  case isFalse => cases h
  case isTrue hown =>
    injection h with h
    obtain ⟨hi', hg, hb⟩ := hblock s hi hp hd hown s' h.symm
    refine ⟨hi', hg, .pick hB hb fun s w _ hb => ?_⟩
    cases w with
    | true =>
      refine .act hB hb fun s s' hi hb h => ?_
      injection h with h
      obtain ⟨hi', hg, hp⟩ := hwake s hi hb s' h.symm
      exact ⟨hi', hg, keeps_lock hQ hk s' hp⟩
    | false =>
      refine .act hB hb fun s s' hi hb h => ?_
      split at h
      case isFalse => cases h
      case isTrue hw =>
        injection h with h
        subst h
        obtain ⟨hg, hp⟩ := hwoken s hi hb hw
        exact ⟨hi, hg, keeps_lock hQ hk s hp⟩

theorem keeps_condWait [DecidableEq κ] (hP : Oblivious K t P) (hk : K.Keeps D t P k) :
    K.Keeps D t P (condWait t c m k) := by
  refine keeps_wait hP.stable hP.stable hP.neutral (fun s hi hp _ hown s' hs => ?_)
    (fun s hi hp s' hs => ?_) (fun s hi hp _ => ?_) hk
  · exact hP.step s s' hi hp (hs ▸ .unlock hown _)
  · exact hP.step s s' hi hp (hs ▸ ⟨rfl, fun _ _ _ => Iff.rfl⟩)
  · exact (hP.step s s hi hp ⟨rfl, fun _ _ _ => Iff.rfl⟩).2

end Rules

end Pthread

end PbsCow

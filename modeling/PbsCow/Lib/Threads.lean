import Mathlib.Logic.Function.Basic
import Mathlib.Logic.Relation
import Mathlib.Order.Defs.PartialOrder

namespace PbsCow
set_option autoImplicit true

/-- The code of a thread that shares a memory `σ` with others: it has returned, it goes on at a label,
it does one atomic action, or it waits for an input. An action that cannot be done yet gives `none`;
what follows an action may depend on the memory that it found. -/
inductive Prog (σ ω ℓ : Type) where
  | ret
  | goto (l : ℓ)
  | act (f : σ → Option σ) (k : σ → Prog σ ω ℓ)
  | pick (k : ω → Prog σ ω ℓ)

/-- An action that is always possible. -/
def Prog.modify (f : σ → σ) (k : Prog σ ω ℓ) : Prog σ ω ℓ := .act (fun s => some (f s)) fun _ => k

def Prog.read (k : σ → Prog σ ω ℓ) : Prog σ ω ℓ := .act some k

/-- A shared memory, and how far each thread has got. -/
structure Threads (τ σ ω ℓ : Type) where
  mem : σ
  code : τ → Prog σ ω ℓ

section Interleaving

variable {τ σ ω ℓ : Type} [DecidableEq τ] (body : τ → ℓ → Prog σ ω ℓ)

def Threads.goOn (x : Threads τ σ ω ℓ) (t : τ) (p : Prog σ ω ℓ) : Threads τ σ ω ℓ :=
  { x with code := Function.update x.code t p }

/-- A step of thread `t`; `w` is what it gets if it waits for an input. -/
def Threads.step (t : τ) (w : ω) (x : Threads τ σ ω ℓ) : Option (Threads τ σ ω ℓ) :=
  match x.code t with
  | .ret => none
  | .goto l => some (x.goOn t (body t l))
  | .act f k => (f x.mem).map fun s => { x with mem := s }.goOn t (k x.mem)
  | .pick k => some (x.goOn t (k w))

def Threads.run : List (τ × ω) → Threads τ σ ω ℓ → Option (Threads τ σ ω ℓ)
  | [], x => some x
  | (t, w) :: l, x => (x.step body t w).bind (run l)

/-- A run whose steps pass the test `d`. -/
def Threads.runIf (d : τ → Prog σ ω ℓ → σ → Bool) :
    List (τ × ω) → Threads τ σ ω ℓ → Option (Threads τ σ ω ℓ)
  | [], x => some x
  | (t, w) :: l, x => if d t (x.code t) x.mem then (x.step body t w).bind (runIf d l) else none

/-- What some interleaving of the threads reaches if each step meets the condition `D` on the code of
the thread and the memory before the step. -/
inductive ReachIf (D : τ → Prog σ ω ℓ → σ → Prop) (x : Threads τ σ ω ℓ) : Threads τ σ ω ℓ → Prop
  | refl : ReachIf D x x
  | step (h : ReachIf D x y) (hd : D t (y.code t) y.mem) (hy : y.step body t w = some z) :
      ReachIf D x z

/-- What some interleaving of the threads reaches. -/
def Reach (x y : Threads τ σ ω ℓ) : Prop := ReachIf body (fun _ _ _ => True) x y

variable {body}

theorem ReachIf.trans {x y z : Threads τ σ ω ℓ} (h : ReachIf body D x y) (h' : ReachIf body D y z) :
    ReachIf body D x z := by
  induction h' with
  | refl => exact h
  | step _ hd hy ih => exact .step ih hd hy

theorem ReachIf.mono {x y : Threads τ σ ω ℓ} (h : ReachIf body D x y)
    (hd : ∀ t p s, D t p s → E t p s) : ReachIf body E x y := by
  induction h with
  | refl => exact .refl
  | step _ hd' hy ih => exact .step ih (hd _ _ _ hd') hy

theorem ReachIf.of_run {x y : Threads τ σ ω ℓ} {d : τ → Prog σ ω ℓ → σ → Bool}
    (hd : ∀ t p s, d t p s = true → D t p s) (h : x.runIf body d l = some y) :
    ReachIf body D x y := by
  induction l generalizing x with
  | nil =>
    injection h with h
    exact h ▸ .refl
  | cons a l ih =>
    rw [Threads.runIf] at h
    split at h
    case isFalse => cases h
    case isTrue ha =>
      obtain ⟨z, hz, hy⟩ := Option.bind_eq_some_iff.1 h
      exact ReachIf.trans (.step .refl (hd _ _ _ ha) hz) (ih hy)

theorem Reach.of_run {x y : Threads τ σ ω ℓ} (h : x.run body l = some y) : Reach body x y := by
  induction l generalizing x with
  | nil =>
    injection h with h
    exact h ▸ .refl
  | cons a l ih =>
    obtain ⟨z, hz, hy⟩ := Option.bind_eq_some_iff.1 h
    exact ReachIf.trans (.step .refl trivial hz) (ih hy)

end Interleaving

/-- What a system of threads promises: an invariant of the memory, what the steps of a thread may do
to the memory, what a thread may assume at a label, and what holds when it has returned. -/
structure Contract (τ σ ℓ : Type) where
  inv : σ → Prop
  guar : τ → σ → σ → Prop
  pre : τ → ℓ → σ → Prop
  post : τ → σ → Prop

namespace Contract

variable {τ σ ω ℓ : Type} (K : Contract τ σ ℓ)

/-- A step of some other thread. -/
def Rely (t : τ) (s s' : σ) : Prop := K.inv s ∧ K.inv s' ∧ ∃ t', t' ≠ t ∧ K.guar t' s s'

/-- What the steps of the other threads keep. -/
def Stable (t : τ) (P : σ → Prop) : Prop := ∀ s s', P s → K.Rely t s s' → P s'

/-- Thread `t` keeps the contract from `s` on if the others do, as long as its steps meet `D`. -/
def Ok (D : τ → Prog σ ω ℓ → σ → Prop) (t : τ) : Prog σ ω ℓ → σ → Prop
  | .ret, s => K.post t s
  | .goto l, s => K.pre t l s
  | .act f k, s => ∃ P, K.Stable t P ∧ P s ∧ ∀ s s', K.inv s → P s → D t (.act f k) s →
      f s = some s' → K.inv s' ∧ K.guar t s s' ∧ Ok D t (k s) s'
  | .pick k, s => ∃ P, K.Stable t P ∧ P s ∧ ∀ s w, K.inv s → P s → D t (.pick k) s → Ok D t (k w) s

/-- The system keeps its contract. -/
structure Sound (D : τ → Prog σ ω ℓ → σ → Prop) (body : τ → ℓ → Prog σ ω ℓ) : Prop where
  refl : ∀ t s, K.guar t s s
  pre : ∀ t l, K.Stable t (K.pre t l)
  post : ∀ t, K.Stable t (K.post t)
  body : ∀ t l s, K.inv s → K.pre t l s → D t (.goto l) s → K.Ok D t (body t l) s

variable {K} {D : τ → Prog σ ω ℓ → σ → Prop} {body : τ → ℓ → Prog σ ω ℓ}

theorem Stable.and (h : K.Stable t P) (h' : K.Stable t Q) : K.Stable t fun s => P s ∧ Q s := by
  intro s s' hs hr
  exact ⟨h s s' hs.1 hr, h' s s' hs.2 hr⟩

theorem Ok.rely (h : K.Sound D body) {p : Prog σ ω ℓ} (hp : K.Ok D t p s) (hr : K.Rely t s s') :
    K.Ok D t p s' := by
  cases p with
  | ret => exact h.post t s s' hp hr
  | goto l => exact h.pre t l s s' hp hr
  | act f k =>
    obtain ⟨P, hP, hs, hk⟩ := hp
    exact ⟨P, hP, hP s s' hs hr, hk⟩
  | pick k =>
    obtain ⟨P, hP, hs, hk⟩ := hp
    exact ⟨P, hP, hP s s' hs hr, hk⟩

theorem Ok.act {f : σ → Option σ} {k : σ → Prog σ ω ℓ} (hP : K.Stable t P) (hs : P s)
    (h : ∀ s s', K.inv s → P s → f s = some s' → K.inv s' ∧ K.guar t s s' ∧ K.Ok D t (k s) s') :
    K.Ok D t (.act f k) s :=
  ⟨P, hP, hs, fun s s' hi hp _ hf => h s s' hi hp hf⟩

theorem Ok.modify {f : σ → σ} {k : Prog σ ω ℓ} (hP : K.Stable t P) (hs : P s)
    (h : ∀ s, K.inv s → P s → K.inv (f s) ∧ K.guar t s (f s) ∧ K.Ok D t k (f s)) :
    K.Ok D t (.modify f k) s := by
  refine .act hP hs fun s s' hi hp hf => ?_
  injection hf with hf
  exact hf ▸ h s hi hp

theorem Ok.read {k : σ → Prog σ ω ℓ} (hg : ∀ s, K.guar t s s) (hP : K.Stable t P) (hs : P s)
    (h : ∀ s, K.inv s → P s → K.Ok D t (k s) s) : K.Ok D t (.read k) s := by
  refine .act hP hs fun s s' hi hp hf => ?_
  injection hf with hf
  exact hf ▸ ⟨hi, hg s, h s hi hp⟩

theorem Ok.pick {k : ω → Prog σ ω ℓ} (hP : K.Stable t P) (hs : P s)
    (h : ∀ s w, K.inv s → P s → K.Ok D t (k w) s) : K.Ok D t (.pick k) s :=
  ⟨P, hP, hs, fun s w hi hp _ => h s w hi hp⟩

/-- Thread `t` keeps the contract from every memory with `P` on. -/
def Keeps (K : Contract τ σ ℓ) (D : τ → Prog σ ω ℓ → σ → Prop) (t : τ) (P : σ → Prop)
    (p : Prog σ ω ℓ) : Prop :=
  ∀ s, P s → K.Ok D t p s

theorem Keeps.act {f : σ → Option σ} {k : σ → Prog σ ω ℓ} (hP : K.Stable t P)
    (h : ∀ s s', K.inv s → P s → D t (.act f k) s → f s = some s' →
      K.inv s' ∧ K.guar t s s' ∧ K.Ok D t (k s) s') : K.Keeps D t P (.act f k) :=
  fun _ hs => ⟨P, hP, hs, h⟩

/-- A step that keeps the invariant and `P`, whatever the memory is. -/
theorem Keeps.calm {f : σ → Option σ} {k : σ → Prog σ ω ℓ} (hP : K.Stable t P)
    (h : ∀ s s', K.inv s → P s → f s = some s' → K.inv s' ∧ K.guar t s s' ∧ P s')
    (hk : ∀ s, K.Keeps D t P (k s)) : K.Keeps D t P (.act f k) := by
  refine .act hP fun s s' hi hp _ hf => ?_
  obtain ⟨hi', hg, hp'⟩ := h s s' hi hp hf
  exact ⟨hi', hg, hk s s' hp'⟩

theorem Keeps.read {k : σ → Prog σ ω ℓ} (hg : ∀ s, K.guar t s s) (hP : K.Stable t P)
    (hk : ∀ s, K.inv s → P s → K.Ok D t (k s) s) : K.Keeps D t P (.read k) :=
  fun _ hs => .read hg hP hs hk

theorem Keeps.pick {k : ω → Prog σ ω ℓ} (hP : K.Stable t P) (hk : ∀ w, K.Keeps D t P (k w)) :
    K.Keeps D t P (.pick k) :=
  fun _ hs => .pick hP hs fun s w _ hp => hk w s hp

theorem Keeps.ite {p : Prop} [Decidable p] {a b : Prog σ ω ℓ} (ha : K.Keeps D t P a)
    (hb : K.Keeps D t P b) : K.Keeps D t P (if p then a else b) := by
  split
  · exact ha
  · exact hb

/-- Every thread keeps the contract from here on. -/
structure Kept (K : Contract τ σ ℓ) (D : τ → Prog σ ω ℓ → σ → Prop) (x : Threads τ σ ω ℓ) :
    Prop where
  inv : K.inv x.mem
  ok : ∀ t, K.Ok D t (x.code t) x.mem

variable [DecidableEq τ]

theorem Kept.goOn {x : Threads τ σ ω ℓ} (h : K.Kept D x) (hb : K.Sound D body) (hi : K.inv s)
    (hg : K.guar t x.mem s) (hp : K.Ok D t p s) :
    K.Kept D ({ x with mem := s }.goOn t p) := by
  refine ⟨hi, fun t' => ?_⟩
  by_cases ht : t' = t
  · subst ht
    simpa [Threads.goOn] using hp
  · simpa [Threads.goOn, ht] using (h.ok t').rely hb ⟨h.inv, hi, t, fun he => ht he.symm, hg⟩

theorem Kept.step {x y : Threads τ σ ω ℓ} (h : K.Kept D x) (hb : K.Sound D body)
    (hd : D t (x.code t) x.mem) (hy : x.step body t w = some y) : K.Kept D y := by
  have ht := h.ok t
  rw [Threads.step] at hy
  cases hc : x.code t with
  | ret => simp [hc] at hy
  | goto l =>
    rw [hc] at ht hd hy
    injection hy with hy
    exact hy ▸ h.goOn hb h.inv (hb.refl t _) (hb.body t l _ h.inv ht hd)
  | act f k =>
    rw [hc] at ht hd hy
    obtain ⟨s, hs, hy⟩ := Option.map_eq_some_iff.1 hy
    obtain ⟨P, _, hP, hk⟩ := ht
    obtain ⟨hi, hg, hok⟩ := hk _ _ h.inv hP hd hs
    exact hy ▸ h.goOn hb hi hg hok
  | pick k =>
    rw [hc] at ht hd hy
    injection hy with hy
    obtain ⟨P, _, hP, hk⟩ := ht
    exact hy ▸ h.goOn hb h.inv (hb.refl t _) (hk _ w h.inv hP hd)

/-- A step does to the memory what the contract lets its thread do. -/
theorem Kept.guar {x y : Threads τ σ ω ℓ} (h : K.Kept D x) (hb : K.Sound D body)
    (hd : D t (x.code t) x.mem) (hy : x.step body t w = some y) : K.guar t x.mem y.mem := by
  have ht := h.ok t
  rw [Threads.step] at hy
  cases hc : x.code t with
  | ret => simp [hc] at hy
  | goto l =>
    rw [hc] at hy
    injection hy with hy
    exact hy ▸ hb.refl t _
  | act f k =>
    rw [hc] at ht hd hy
    obtain ⟨s, hs, hy⟩ := Option.map_eq_some_iff.1 hy
    obtain ⟨P, _, hP, hk⟩ := ht
    exact hy ▸ (hk _ _ h.inv hP hd hs).2.1
  | pick k =>
    rw [hc] at hy
    injection hy with hy
    exact hy ▸ hb.refl t _

/-- A system that keeps its contract keeps it in every interleaving. -/
theorem Kept.reach {x y : Threads τ σ ω ℓ} (hx : K.Kept D x) (hb : K.Sound D body)
    (h : ReachIf body D x y) : K.Kept D y := by
  induction h with
  | refl => exact hx
  | step _ hd hy ih => exact ih.step hb hd hy

end Contract

section Owners

variable [DecidableEq ι] {owner : ι → Option τ}

theorem owner_take (h : owner i = none) :
    Function.update owner i (some t) j = some t' ↔ owner j = some t' ∨ j = i ∧ t' = t := by
  by_cases hj : j = i
  · subst hj
    rw [Function.update_self, h]
    simp [eq_comm]
  · simp [hj]

theorem owner_drop : Function.update owner i none j = some t ↔ owner j = some t ∧ j ≠ i := by
  by_cases hj : j = i
  · simp [hj]
  · simp [hj]

end Owners

section Waiting

variable {ι : Type} [Preorder ι] (wants : τ → Option ι) (owner : ι → Option τ)

/-- Thread `t` waits for a lock that `t'` holds. -/
def Waits (t t' : τ) : Prop := ∃ i, wants t = some i ∧ owner i = some t'

variable {wants owner}

theorem Waits.le (h : ∀ t i j, wants t = some i → owner j = some t → j < i)
    (ht : Relation.TransGen (Waits wants owner) t t') :
    ∃ i j, wants t = some i ∧ owner j = some t' ∧ i ≤ j := by
  induction ht with
  | single hw =>
    obtain ⟨i, hi, ho⟩ := hw
    exact ⟨i, i, hi, ho, le_refl i⟩
  | tail _ hw ih =>
    obtain ⟨i, j, hi, hj, hij⟩ := ih
    obtain ⟨k, hk, ho⟩ := hw
    exact ⟨i, k, hi, ho, le_trans hij (le_of_lt (h _ k j hk hj))⟩

/-- Threads that take their locks in order do not wait for each other in a circle. -/
theorem Waits.acyclic (h : ∀ t i j, wants t = some i → owner j = some t → j < i) :
    ¬ Relation.TransGen (Waits wants owner) t t := by
  intro ht
  obtain ⟨i, j, hi, hj, hij⟩ := Waits.le h ht
  exact lt_irrefl i (lt_of_le_of_lt hij (h t i j hi hj))

end Waiting

end PbsCow

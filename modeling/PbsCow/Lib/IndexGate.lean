import Mathlib.Data.List.Basic
import PbsCow.Lib.Threads

namespace PbsCow
set_option autoImplicit true

namespace Prog

variable {σ ω ℓ : Type} (count : σ → Int)

/-- Code that leaves `count` alone, and goes on at the labels `L`. -/
def Quiet (L : ℓ → Prop) : Prog σ ω ℓ → Prop
  | .ret => True
  | .goto l => L l
  | .act f k => (∀ s s', f s = some s' → count s' = count s) ∧ ∀ s, (k s).Quiet L
  | .pick k => ∀ w, (k w).Quiet L

/-- Code that leaves `count` alone until it goes on at a label in `L`, or as `test`. -/
inductive Nears (L : ℓ → Prop) (test : Prog σ ω ℓ) : Prog σ ω ℓ → Prop
  | test : Nears L test test
  | goto (h : L l) : Nears L test (.goto l)
  | act (hf : ∀ s s', f s = some s' → count s' = count s) (hk : ∀ s, Nears L test (k s)) :
    Nears L test (.act f k)
  | pick (hk : ∀ w, Nears L test (k w)) : Nears L test (.pick k)

/-- Code that adds one to `count`, once, and is quiet before and after that. -/
inductive Enters (L : ℓ → Prop) : Prog σ ω ℓ → Prop
  | act (hf : ∀ s s', f s = some s' → count s' = count s) (hk : ∀ s, Enters L (k s)) : Enters L (.act f k)
  | raise (hf : ∀ s s', f s = some s' → count s' = count s + 1) (hk : ∀ s, (k s).Quiet count L) :
    Enters L (.act f k)

variable {count} {L : ℓ → Prop} {test : Prog σ ω ℓ} {f : σ → Option σ} {k : σ → Prog σ ω ℓ}

theorem Nears.act_cases (h : Nears count L test (.act f k)) :
    test = .act f k ∨ (∀ s s', f s = some s' → count s' = count s) ∧ ∀ s, Nears count L test (k s) := by
  generalize hp : Prog.act f k = p at h
  cases h with
  | test => exact .inl rfl
  | goto => cases hp
  | act hf hk =>
    injection hp with h₁ h₂
    subst h₁ h₂
    exact .inr ⟨hf, hk⟩
  | pick => cases hp

end Prog

/-- A gate that threads pass in the order of their indices: thread `i` tests whether its index is above the
count, without a lock, and adds one to the count when it is not. -/
structure IndexGate (τ σ ω ℓ : Type) where
  count : σ → Int
  thread : Nat → τ
  shut : Nat → Prog σ ω ℓ
  enter : Nat → Prog σ ω ℓ
  before : Nat → ℓ → Prop
  after : τ → ℓ → Prop

namespace IndexGate

variable {τ σ ω ℓ : Type} (G : IndexGate τ σ ω ℓ)

def test (i : Nat) : Prog σ ω ℓ := .read fun s => if (i : Int) > G.count s then G.shut i else G.enter i

/-- Thread `t` is not one of the first `n` at the gate. -/
def Other (n : Nat) (t : τ) : Prop := ∀ i, i < n → t ≠ G.thread i

/-- Only the gate changes the count, and the threads come to it once. -/
structure Sound (body : τ → ℓ → Prog σ ω ℓ) : Prop where
  inj : G.thread i = G.thread j → i = j
  before : G.before i l → Prog.Nears G.count (G.before i) (G.test i) (body (G.thread i) l)
  shut : Prog.Nears G.count (G.before i) (G.test i) (G.shut i)
  enter : (G.enter i).Enters G.count (G.after (G.thread i))
  after : G.after t l → (body t l).Quiet G.count (G.after t)

/-- The threads that have changed the count, in the order in which they did, and what is reached. -/
inductive Passes [DecidableEq τ] (body : τ → ℓ → Prog σ ω ℓ) (x : Threads τ σ ω ℓ) :
    List τ → Threads τ σ ω ℓ → Prop
  | refl : Passes body x [] x
  | step (h : Passes body x l y) (hy : y.step body t w = some z) :
    Passes body x (if G.count z.mem = G.count y.mem then l else l ++ [t]) z

/-- Where thread `i` is when `m` threads have passed: before the gate, between its test and its increment,
or past the gate. -/
def Place (m i : Nat) (p : Prog σ ω ℓ) : Prop :=
  Prog.Nears G.count (G.before i) (G.test i) p ∧ m ≤ i ∨
    p.Enters G.count (G.after (G.thread i)) ∧ i = m ∨
    p.Quiet G.count (G.after (G.thread i)) ∧ i < m

structure Inv (n : Nat) (l : List τ) (x : Threads τ σ ω ℓ) : Prop where
  count : G.count x.mem = l.length
  order : l = (List.range l.length).map G.thread
  place : ∀ i, i < n → G.Place l.length i (x.code (G.thread i))
  other : ∀ t, G.Other n t → (x.code t).Quiet G.count (G.after t)

variable {G} {body : τ → ℓ → Prog σ ω ℓ} {n : Nat} {l : List τ} {x y : Threads τ σ ω ℓ}

section Step

variable [DecidableEq τ]

theorem Inv.calm (h : G.Inv n l x) (hc : G.count s = G.count x.mem)
    (hp : ∀ i, i < n → t = G.thread i → G.Place l.length i p)
    (ho : G.Other n t → p.Quiet G.count (G.after t)) : G.Inv n l ({ x with mem := s }.goOn t p) := by
  constructor
  · exact hc.trans h.count
  · exact h.order
  · intro i hi
    by_cases ht : G.thread i = t
    · subst ht
      simpa only [Threads.goOn, Function.update_self] using hp i hi rfl
    · simpa only [Threads.goOn, Function.update_of_ne ht] using h.place i hi
  · intro t' hother
    by_cases ht : t' = t
    · subst ht
      simpa only [Threads.goOn, Function.update_self] using ho hother
    · simpa only [Threads.goOn, Function.update_of_ne ht] using h.other t' hother

/-- The thread in the window, which is the next in order, passes. -/
theorem Inv.pass (h : G.Inv n l x) (hG : G.Sound body) (hi : l.length < n)
    (hc : G.count s = G.count x.mem + 1)
    (hp : p.Quiet G.count (G.after (G.thread l.length))) :
    G.Inv n (l ++ [G.thread l.length]) ({ x with mem := s }.goOn (G.thread l.length) p) := by
  have hlen : (l ++ [G.thread l.length]).length = l.length + 1 := by
    rw [List.length_append, List.length_singleton]
  constructor
  · rw [hlen]
    exact hc.trans (by rw [h.count]; rfl)
  · rw [hlen, List.range_succ, List.map_append, ← h.order]
    rfl
  · intro i hin
    rw [hlen]
    by_cases he : i = l.length
    · subst he
      exact .inr (.inr ⟨by simpa only [Threads.goOn, Function.update_self] using hp, Nat.lt_succ_self _⟩)
    · have hne : G.thread i ≠ G.thread l.length := fun ht => he (hG.inj ht)
      simp only [Threads.goOn, Function.update_of_ne hne]
      rcases h.place i hin with ⟨hp, hle⟩ | ⟨_, hi'⟩ | ⟨hp, hlt⟩
      · exact .inl ⟨hp, Nat.lt_of_le_of_ne hle fun hl => he hl.symm⟩
      · exact absurd hi' he
      · exact .inr (.inr ⟨hp, Nat.lt_succ_of_lt hlt⟩)
  · intro t hother
    have hne : t ≠ G.thread l.length := hother _ hi
    simpa only [Threads.goOn, Function.update_of_ne hne] using h.other t hother

theorem Inv.quiet_step (h : G.Inv n l x) (hG : G.Sound body) (hq : (x.code t).Quiet G.count (G.after t))
    (hp : ∀ i, i < n → t = G.thread i → i < l.length) (hy : x.step body t w = some y) :
    G.Inv n l y ∧ G.count y.mem = G.count x.mem := by
  have hgo {s p} (hc : G.count s = G.count x.mem) (hqp : p.Quiet G.count (G.after t)) :
      G.Inv n l ({ x with mem := s }.goOn t p) := by
    apply h.calm hc
    · rintro i hi rfl
      exact .inr (.inr ⟨hqp, hp i hi rfl⟩)
    · exact fun _ => hqp
  rw [Threads.step] at hy
  cases hcode : x.code t with
  | ret => simp [hcode] at hy
  | goto lab =>
    rw [hcode] at hq hy
    injection hy with hy
    subst hy
    exact ⟨hgo rfl (hG.after hq), rfl⟩
  | act f k =>
    rw [hcode] at hq hy
    obtain ⟨s, hs, hy⟩ := Option.map_eq_some_iff.1 hy
    subst hy
    exact ⟨hgo (hq.1 _ s hs) (hq.2 _), hq.1 _ s hs⟩
  | pick k =>
    rw [hcode] at hq hy
    injection hy with hy
    subst hy
    exact ⟨hgo rfl (hq w), rfl⟩

theorem Inv.nears_step (h : G.Inv n l x) (hG : G.Sound body) (hi : i < n)
    (hq : Prog.Nears G.count (G.before i) (G.test i) (x.code (G.thread i))) (hle : l.length ≤ i)
    (hy : x.step body (G.thread i) w = some y) : G.Inv n l y ∧ G.count y.mem = G.count x.mem := by
  have hgo {s p} (hc : G.count s = G.count x.mem) (hp : G.Place l.length i p) :
      G.Inv n l ({ x with mem := s }.goOn (G.thread i) p) := by
    apply h.calm hc
    · intro j _ he
      rwa [← hG.inj he]
    · exact fun ho => absurd rfl (ho i hi)
  rw [Threads.step] at hy
  generalize hcode : x.code (G.thread i) = p at hq hy
  cases hq with
  | test =>
    obtain ⟨s, hs, hy⟩ := Option.map_eq_some_iff.1 hy
    injection hs with hs
    subst hs hy
    refine ⟨hgo rfl ?_, rfl⟩
    -- the test succeeds only when all threads before `i` have passed
    dsimp only
    by_cases ht : (i : Int) > G.count x.mem
    · rw [if_pos ht]
      exact .inl ⟨hG.shut, hle⟩
    · rw [if_neg ht]
      rw [h.count] at ht
      exact .inr (.inl ⟨hG.enter, by omega⟩)
  | goto hl =>
    injection hy with hy
    subst hy
    exact ⟨hgo rfl (.inl ⟨hG.before hl, hle⟩), rfl⟩
  | act hf hk =>
    obtain ⟨s, hs, hy⟩ := Option.map_eq_some_iff.1 hy
    subst hy
    exact ⟨hgo (hf _ s hs) (.inl ⟨hk _, hle⟩), hf _ s hs⟩
  | pick hk =>
    injection hy with hy
    subst hy
    exact ⟨hgo rfl (.inl ⟨hk w, hle⟩), rfl⟩

theorem Inv.enters_step (h : G.Inv n l x) (hG : G.Sound body) (hi : l.length < n)
    (hq : (x.code (G.thread l.length)).Enters G.count (G.after (G.thread l.length)))
    (hy : x.step body (G.thread l.length) w = some y) :
    G.Inv n l y ∧ G.count y.mem = G.count x.mem ∨
      G.Inv n (l ++ [G.thread l.length]) y ∧ G.count y.mem = G.count x.mem + 1 := by
  rw [Threads.step] at hy
  generalize hcode : x.code (G.thread l.length) = p at hq hy
  cases hq with
  | act hf hk =>
    obtain ⟨s, hs, hy⟩ := Option.map_eq_some_iff.1 hy
    subst hy
    refine .inl ⟨h.calm (hf _ s hs) ?_ fun ho => absurd rfl (ho _ hi), hf _ s hs⟩
    intro j _ he
    rw [← hG.inj he]
    exact .inr (.inl ⟨hk _, rfl⟩)
  | raise hf hk =>
    obtain ⟨s, hs, hy⟩ := Option.map_eq_some_iff.1 hy
    subst hy
    exact .inr ⟨h.pass hG hi (hf _ s hs) (hk _), hf _ s hs⟩

theorem Inv.step (h : G.Inv n l x) (hG : G.Sound body) (hy : x.step body t w = some y) :
    G.Inv n (if G.count y.mem = G.count x.mem then l else l ++ [t]) y := by
  have hstay {l'} (hs : G.Inv n l y ∧ G.count y.mem = G.count x.mem) :
      G.Inv n (if G.count y.mem = G.count x.mem then l else l') y := by
    rw [if_pos hs.2]
    exact hs.1
  by_cases ho : G.Other n t
  · exact hstay (h.quiet_step hG (h.other t ho) (fun i hi he => absurd he (ho i hi)) hy)
  · simp only [Other, not_forall, not_not] at ho
    obtain ⟨i, hi, rfl⟩ := ho
    rcases h.place i hi with ⟨hq, hle⟩ | ⟨hq, rfl⟩ | ⟨hq, hlt⟩
    · exact hstay (h.nears_step hG hi hq hle hy)
    · rcases h.enters_step hG hi hq hy with hs | ⟨hs, hc⟩
      · exact hstay hs
      · rw [if_neg (by rw [hc]; omega)]
        exact hs
    · apply hstay
      apply h.quiet_step hG hq _ hy
      intro j _ he
      rwa [← hG.inj he]

/-- Whatever the interleaving, the threads pass the gate in the order of their indices. -/
theorem Inv.passes (hx : G.Inv n [] x) (hG : G.Sound body) (h : G.Passes body x l y) : G.Inv n l y := by
  induction h with
  | refl => exact hx
  | step _ hy ih => exact ih.step hG hy

end Step

end IndexGate

end PbsCow

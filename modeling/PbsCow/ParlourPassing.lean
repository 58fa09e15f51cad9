import PbsCow.ParlourGates
import PbsCow.ParlourOrder

namespace PbsCow
set_option autoImplicit true

namespace Parlour

open Pthread

variable {q : Config} {g : Gate} {t : Tid} {x : Threads Tid Memory Bool Label}

namespace Gate

theorem thread_injective (g : Gate) {i j : Nat} (h : g.thread i = g.thread j) : i = j := by
  cases g <;> injection h

theorem increment_enters (q : Config) (g : Gate) (i : Nat) :
    (g.increment q i).Enters (g.index q).count ((g.index q).after (g.thread i)) := by
  have hon := Still.onward (q := q) g i
  cases g <;>
  · apply Prog.Enters.raise
    · intro s s' h
      injection h with h
      subst h
      rfl
    · exact fun _ => hon

theorem enter_enters (q : Config) (g : Gate) (i : Nat) :
    (g.enter q i).Enters (g.index q).count ((g.index q).after (g.thread i)) := by
  apply Prog.Enters.act
  · intro s s' h
    split at h
    · injection h with h
      subst h
      rfl
    · cases h
  · exact fun _ => g.increment_enters q i

theorem sound (q : Config) (g : Gate) : (g.index q).Sound (body q) where
  inj := g.thread_injective
  before := Nearing.body g
  shut := Nearing.shut g _
  enter := g.enter_enters q _
  after := Still.body g

/-- The increment as an action on the memory. -/
theorem increment_act (q : Config) (g : Gate) (i : Nat) : ∃ f k, g.increment q i = .act f k ∧
    ∀ s, ∃ s', f s = some s' ∧ (g.index q).count s' = (g.index q).count s + 1 := by
  cases g <;> exact ⟨_, _, rfl, fun s => ⟨_, rfl, rfl⟩⟩

theorem not_quiet_increment (q : Config) (g : Gate) (i : Nat) : ¬Still q g t (g.increment q i) := by
  obtain ⟨f, k, he, hf⟩ := g.increment_act q i
  intro h
  rw [he] at h
  obtain ⟨s', hs, hc⟩ := hf (start q).mem
  have hsame := h.1 _ s' hs
  omega

theorem not_quiet_enter (q : Config) (g : Gate) (i : Nat) : ¬Still q g t (g.enter q i) :=
  fun h => not_quiet_increment q g i (h.2 (start q).mem)

theorem not_nearing_increment (q : Config) (g : Gate) (i : Nat) : ¬Nearing q g j (g.increment q i) := by
  obtain ⟨f, k, he, hf⟩ := g.increment_act q i
  intro h
  rw [he] at h
  obtain ⟨s', hs, hc⟩ := hf (start q).mem
  rcases h.act_cases with htest | ⟨hquiet, _⟩
  · injection htest with htest
    rw [← htest] at hs
    injection hs with hs
    subst hs
    omega
  · have hsame := hquiet _ s' hs
    omega

/-- The test never waits for a mutex. -/
theorem not_nearing_enter (q : Config) (g : Gate) (i : Nat) : ¬Nearing q g j (g.enter q i) := by
  intro h
  rcases h.act_cases with htest | ⟨_, hk⟩
  · injection htest with htest
    have hs := congrFun htest { (start q).mem with owner := fun _ => some .exit }
    simp at hs
  · exact not_nearing_increment q g i (hk (start q).mem)

/-- A thread in the window is the next one. -/
theorem Between.eq {m i : Nat} (hb : g.Between q x i) (hp : (g.index q).Place m i (x.code (g.thread i))) :
    i = m := by
  rcases hp with ⟨hn, _⟩ | ⟨_, he⟩ | ⟨hs, _⟩
  · rcases hb with hb | hb
    · rw [hb] at hn
      exact absurd hn (not_nearing_enter q g i)
    · rw [hb] at hn
      exact absurd hn (not_nearing_increment q g i)
  · exact he
  · rcases hb with hb | hb
    · rw [hb] at hs
      exact absurd hs (not_quiet_enter q g i)
    · rw [hb] at hs
      exact absurd hs (not_quiet_increment q g i)

theorem Between.lt (hb : g.Between q x i) (hi : (g.index q).Inv (g.size q) l x) : i < g.size q := by
  by_contra hge
  have hother : (g.index q).Other (g.size q) (g.thread i) := by
    intro j hj he
    obtain rfl := g.thread_injective he
    exact hge hj
  have hs := hi.other _ hother
  rcases hb with hb | hb
  · rw [hb] at hs
    exact not_quiet_enter q g i hs
  · rw [hb] at hs
    exact not_quiet_increment q g i hs

theorem start_other (q : Config) (g : Gate) (ht : (g.index q).Other (g.size q) t) :
    Still q g t ((start q).code t) := by
  have hahead (l : Label) (hl : l.tid = t) (hno : g.ahead l = false) : Still q g t (.goto l) := .goto hl hno
  cases t with
  | counter => exact hahead .tick rfl (by cases g <;> rfl)
  | machine i => exact .ite (.lock (hahead (.starts i) rfl (by cases g <;> rfl))) trivial
  | exit => exact .lock (hahead .exits rfl (by cases g <;> rfl))
  | arrival i =>
    cases g with
    | customers =>
      have hi : ¬i < q.tot_customer := fun hi => ht i hi rfl
      simp only [start, if_neg hi]
      trivial
    | icecreams => exact .ite (hahead (.gate i) rfl rfl) trivial
  | queue j =>
    cases g with
    | customers => exact .ite (hahead (.allocated j) rfl rfl) trivial
    | icecreams =>
      have hj : ¬j < q.total_icecream := fun hj => ht j hj rfl
      simp only [start, if_neg hj]
      trivial

theorem start_inv (q : Config) (g : Gate) : (g.index q).Inv (g.size q) [] (start q) where
  count := by cases g <;> rfl
  order := rfl
  place i hi := by
    refine .inl ⟨?_, Nat.zero_le i⟩
    cases g with
    | customers =>
      have hi : i < q.tot_customer := hi
      simp only [index, thread, start, if_pos hi]
      exact .goto ⟨rfl, rfl⟩
    | icecreams =>
      have hi : i < q.total_icecream := hi
      simp only [index, thread, start, if_pos hi]
      exact .goto ⟨rfl, rfl⟩
  other t ht := start_other q g ht

end Gate

/-- Every interleaving passes threads through the gates. -/
theorem passes_of_reach (g : Gate) (h : Reach (body q) (start q) x) :
    ∃ l, (g.index q).Passes (body q) (start q) l x := by
  induction h with
  | refl => exact ⟨[], .refl⟩
  | step _ _ hy ih =>
    obtain ⟨l, hl⟩ := ih
    exact ⟨_, hl.step hy⟩

/-- At both gates, in every interleaving of any number of threads: `l` are the threads that have changed the
counter, in the order in which they did. -/
theorem gates_admit_in_order (q : Config) (g : Gate)
    (h : (g.index q).Passes (body q) (start q) l x) :
    g.counter x.mem.data = l.length ∧ l = (List.range l.length).map g.thread ∧
    (∀ t, t ∈ l ↔ ∃ i : Nat, (i : Int) < g.counter x.mem.data ∧ t = g.thread i) ∧
    ∀ i j, g.Between q x i → g.Between q x j → i = j := by
  have hi := (Gate.start_inv q g).passes (g.sound q) h
  have hcount : g.counter x.mem.data = l.length := hi.count
  have hnext {i} (hb : g.Between q x i) : i = l.length := hb.eq (hi.place i (hb.lt hi))
  refine ⟨hcount, hi.order, ?_, fun i j hb hb' => (hnext hb).trans (hnext hb').symm⟩
  intro t
  have hmem : t ∈ l ↔ ∃ i, i < l.length ∧ g.thread i = t := by
    conv_lhs => rw [hi.order]
    rw [List.mem_map]
    simp only [List.mem_range]
    rfl
  rw [hmem, hcount]
  constructor
  · rintro ⟨i, hlt, rfl⟩
    exact ⟨i, by omega, rfl⟩
  · rintro ⟨i, hlt, rfl⟩
    exact ⟨i, by omega, rfl⟩

/-- The first of two customers passes. -/
theorem gates_admit_in_order_couple : ∃ (l : List Tid) (x : Threads Tid Memory Bool Label), l = [.arrival 0] ∧
    Gate.customers.counter x.mem.data = l.length ∧ l = (List.range l.length).map Gate.customers.thread ∧
    (∀ t, t ∈ l ↔ ∃ i : Nat, (i : Int) < Gate.customers.counter x.mem.data ∧ t = Gate.customers.thread i) ∧
    ∀ i j, Gate.customers.Between couple x i → Gate.customers.Between couple x j → i = j := by
  have h₀ : (Gate.customers.index couple).Passes (body couple) (start couple) [] (start couple) := .refl
  have h₁ := h₀.step (t := .arrival 0) (w := false) rfl
  have h₂ := h₁.step (t := .arrival 0) (w := false) rfl
  have h₃ := h₂.step (t := .arrival 0) (w := false) rfl
  have h₄ := h₃.step (t := .arrival 0) (w := false) rfl
  exact ⟨_, _, rfl, gates_admit_in_order couple .customers h₄⟩

end Parlour

end PbsCow

import PbsCow.ParlourIcecreams

namespace PbsCow
set_option autoImplicit true

namespace Parlour

open Pthread

/-- What a thread tests before it waits at one of the three gates. -/
def Shut (q : Config) (d : Data) : Tid → Cond → Prop
  | .arrival i, .verfastswap => (i : Int) > d.scheduler
  | .queue j, .fastswap => (j : Int) > d.scheduleind
  | .arrival i, .cond_swapn => d.done i < q.num_icecream i
  | _, _ => True

/-- A thread enters the wait at a gate only while the gate is shut, or while the thread that has opened
it has yet to broadcast. -/
def WaitsRightly (q : Config) (t : Tid) (k : Code) (s : Memory) : Prop :=
  ∀ c m k', k = condWait t c m k' → c ≠ .cond_sec →
    Shut q s.data t c ∨ ∃ t', s.data.owes t' c = true

/-- A thread that is blocked at a gate waits rightly, or will be woken. -/
def GateInv (q : Config) (s : Memory) : Prop :=
  ∀ t c, c ≠ .cond_sec → s.waits t = some c → Shut q s.data t c ∨ ∃ t', s.data.owes t' c = true

variable {q : Config} {D : Tid → Code → Memory → Prop} {s s' : Memory}

theorem GateInv.same (hi : GateInv q s) (hw : ∀ t, s'.waits t = s.waits t ∨ s'.waits t = none)
    (hs : ∀ t c, Shut q s.data t c → Shut q s'.data t c ∨ ∃ t', s'.data.owes t' c = true)
    (ho : ∀ t c, s.data.owes t c = true → s'.data.owes t c = true) : GateInv q s' := by
  intro t c hc hb
  rcases hw t with he | he
  · rcases hi t c hc (he ▸ hb) with h | ⟨t', h⟩
    · exact hs t c h
    · exact .inr ⟨t', ho t' c h⟩
  · rw [he] at hb
    cases hb

theorem owes_owe (d : Data) (t : Tid) (c : Cond) : (d.owe t c true).owes t c = true := by
  simp [Data.owe]

theorem owes_mono (d : Data) (t : Tid) (c : Cond) (h : d.owes t' c' = true) :
    (d.owe t c true).owes t' c' = true := by
  by_cases ht : t' = t
  · subst ht
    by_cases hc : c' = c
    · rw [hc]
      exact owes_owe d t' c
    · simpa [Data.owe, hc] using h
  · simpa [Data.owe, ht] using h

/-- A thread opens the gate `c` and owes a broadcast; the other gates stay as they are. -/
theorem GateInv.opens (hi : GateInv q s) (hd : ∀ t' c', c' ≠ c → Shut q s.data t' c' → Shut q d t' c')
    (ho : d.owes = s.data.owes) : GateInv q { s with data := d.owe t c true } := by
  refine hi.same (fun _ => .inl rfl) (fun t' c' h => ?_) fun t' c' h => ?_
  · by_cases hc : c' = c
    · exact .inr ⟨t, hc ▸ owes_owe d t c⟩
    · refine .inl ?_
      have := hd t' c' hc h
      cases t' <;> cases c' <;> exact this
  · exact owes_mono d t c (ho ▸ h)

/-- A write that has nothing to do with gates. -/
theorem GateInv.calm (hi : GateInv q s) (hs : d.scheduler = s.data.scheduler)
    (hj : d.scheduleind = s.data.scheduleind) (hd : d.done = s.data.done)
    (ho : d.owes = s.data.owes) : GateInv q { s with data := d } := by
  refine hi.same (fun _ => .inl rfl) (fun t c h => .inl ?_) fun _ _ h => ho ▸ h
  cases t <;> cases c <;> simp only [Shut, hs, hj, hd] <;> exact h

theorem GateInv.write (hi : GateInv q s) (hl : Live q t s) (h : Write q D t s d) :
    GateInv q { s with data := d } := by
  cases h with
  | pass =>
    refine hi.opens (fun t' c' hc h => ?_) rfl
    cases t' <;> cases c' <;> first | exact h | exact (hc rfl).elim
  | turn =>
    refine hi.opens (fun t' c' hc h => ?_) rfl
    cases t' <;> cases c' <;> first | exact h | exact (hc rfl).elim
  | count h ho =>
    refine hi.opens (fun t' c' hc h => ?_) rfl
    cases t' <;> cases c' <;> first | exact h | exact (hc rfl).elim
  | @settle i _ h ho =>
    -- only the customer itself, who is not blocked, looks at its count
    intro t c hc hb
    have ht : t ≠ .arrival i := by
      rintro rfl
      exact absurd (hl.awake.symm.trans hb) (by simp)
    rcases hi t c hc hb with hs | hs
    · refine .inl ?_
      cases t <;> cases c <;> try exact hs
      rename_i i'
      have hne : i' ≠ i := fun he => ht (by rw [he])
      simpa [Shut, hne] using hs
    · exact .inr hs
  | _ => exact hi.calm rfl rfl rfl rfl

theorem GateInv.act (hi : GateInv q s) (h : Act q (WaitsRightly q) t s s') : GateInv q s' := by
  cases h with
  | lock h =>
    exact hi.same h.waits (fun _ _ hs => .inl (by rw [h.data]; exact hs)) fun _ _ ho => by rwa [h.data]
  | @block m c k hl ho hd ht =>
    intro t' c' hc hb
    by_cases he : t' = t
    · subst he
      have hcc : c = c' := by simpa using hb
      subst hcc
      exact hd c m k rfl hc
    · exact hi t' c' hc ((Function.update_of_ne he _ _).symm.trans hb)
  | @signal c h =>
    intro t' c' hc hb
    dsimp only at hb
    split at hb
    case isTrue => cases hb
    case isFalse hne =>
      have hcc : c' ≠ c := fun he => hne (he ▸ hb)
      rcases hi t' c' hc hb with hs | ⟨t'', ho⟩
      · refine .inl ?_
        cases t' <;> cases c' <;> exact hs
      · refine .inr ⟨t'', ?_⟩
        by_cases he : t'' = t
        · subst he
          simpa [Data.owe, hcc] using ho
        · simpa [Data.owe, he] using ho
  | tock h =>
    refine hi.same (fun t' => ?_) (fun t' c' hs => .inl ?_) fun _ _ h => h
    · dsimp only
      split
      · exact .inr rfl
      · exact .inl rfl
    · cases t' <;> cases c' <;> exact hs
  | write hl h => exact hi.write hl h

/-- If every thread that enters a wait at a gate finds it shut, or the broadcast still to come, nobody
stays blocked at an open gate with no broadcast to come. -/
theorem no_wakeup_lost_at_gates (q : Config) (h : ReachIf (body q) (WaitsRightly q) (start q) x) (t : Tid)
    (c : Cond) (hc : c ≠ .cond_sec) (hw : x.mem.waits t = some c) :
    Shut q x.mem.data t c ∨ ∃ t', x.mem.data.owes t' c = true :=
  kept_by_runs h (GateInv q) (fun _ _ _ h => by cases h) (fun _ _ _ _ hi ha => hi.act ha) t c hc hw

/-- One machine, and two customers who want an ice cream each. -/
def couple : Config where
  k := 1
  mac := [⟨0, 9⟩]
  fav := [("vanilla", 3)]
  top := [("caramel", 4)]
  arr := [⟨1, 0, [⟨"vanilla", ["caramel"]⟩]⟩, ⟨2, 0, [⟨"vanilla", ["caramel"]⟩]⟩]

/-- The second customer waits for the first. -/
theorem no_wakeup_lost_at_gates_couple : ∃ x : Threads Tid Memory Bool Label,
    x.mem.waits (.arrival 1) = some .verfastswap ∧ (Shut couple x.mem.data (.arrival 1) .verfastswap ∨
      ∃ t', x.mem.data.owes t' .verfastswap = true) := by
  have hd (k : Code) (s : Memory) (hs : s.data.scheduler = 0) (hn : s.data.done 1 = 0) :
      WaitsRightly couple (.arrival 1) k s := by
    intro c m k' _ _
    refine .inl ?_
    cases c with
    | verfastswap =>
      rw [Shut, hs]
      decide
    | cond_swapn =>
      rw [Shut, hn]
      decide
    | _ => trivial
  have h₀ : ReachIf (body couple) (WaitsRightly couple) (start couple) (start couple) := .refl
  have h₁ := h₀.step (t := .arrival 1) (w := false) (hd _ _ rfl rfl) rfl
  have h₂ := h₁.step (t := .arrival 1) (w := false) (hd _ _ rfl rfl) rfl
  have h₃ := h₂.step (t := .arrival 1) (w := false) (hd _ _ rfl rfl) rfl
  have h₄ := h₃.step (t := .arrival 1) (w := false) (hd _ _ rfl rfl) rfl
  exact ⟨_, rfl, no_wakeup_lost_at_gates couple h₄ (.arrival 1) .verfastswap (by decide) rfl⟩

/-- The second customer finds the gate shut; the first passes and broadcasts before the second waits. -/
theorem wakeup_lost_at_gate : ∃ x, Reach (body couple) (start couple) x ∧
    x.mem.waits (.arrival 1) = some .verfastswap ∧
    ¬ Shut couple x.mem.data (.arrival 1) .verfastswap ∧
    ∀ t', x.mem.data.owes t' .verfastswap = false := by
  have h₀ : Reach (body couple) (start couple) (start couple) := .refl
  have h₁ := h₀.step (t := .arrival 1) (w := false) trivial rfl
  have h₂ := h₁.step (t := .arrival 1) (w := false) trivial rfl
  have h₃ := h₂.step (t := .arrival 0) (w := false) trivial rfl
  have h₄ := h₃.step (t := .arrival 0) (w := false) trivial rfl
  have h₅ := h₄.step (t := .arrival 0) (w := false) trivial rfl
  have h₆ := h₅.step (t := .arrival 0) (w := false) trivial rfl
  have h₇ := h₆.step (t := .arrival 0) (w := false) trivial rfl
  have h₈ := h₇.step (t := .arrival 0) (w := false) trivial rfl
  have h₉ := h₈.step (t := .arrival 1) (w := false) trivial rfl
  have h₁₀ := h₉.step (t := .arrival 1) (w := false) trivial rfl
  refine ⟨_, h₁₀, rfl, Int.lt_irrefl 1, fun t' => ?_⟩
  by_cases ht : t' = .arrival 0
  · subst ht
    rfl
  · have hne (f : Tid → Cond → Bool) (g : Cond → Bool) :
        Function.update f (.arrival 0) g t' = f t' := Function.update_of_ne ht _ _
    exact congrFun ((hne _ _).trans (hne _ _)) .verfastswap

end Parlour

end PbsCow

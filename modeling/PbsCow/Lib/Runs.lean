import PbsCow.Lib.Hoare

namespace PbsCow
set_option autoImplicit true

/-- Do the operations one after the other, and collect what they return. -/
def runWith (step : ω → StateT σ (Except ε) β) : List ω → StateT σ (Except ε) (List β)
  | [] => return []
  | op :: ops => do
    let out ← step op
    return out :: (← runWith step ops)

theorem runWith_cons {step : ω → StateT σ (Except ε) β} (h : step op s = .ok (out, s'))
    (h' : runWith step ops s' = .ok (outs, s'')) :
    runWith step (op :: ops) s = .ok (out :: outs, s'') := by
  simp only [runWith, bind, StateT.bind, h, h', Except.bind]
  rfl

/-- The steps of a run all meet a condition on the operation and the state before it. -/
def Meets (step : ω → StateT σ (Except ε) β) (C : σ → ω → Prop) : List ω → σ → Prop
  | [], _ => True
  | op :: ops, s => C s op ∧ ∀ out s', step op s = .ok (out, s') → Meets step C ops s'

theorem Meets.of_forall {step : ω → StateT σ (Except ε) β} {C : σ → ω → Prop}
    (h : ∀ op ∈ ops, ∀ s, C s op) (s : σ) : Meets step C ops s := by
  induction ops generalizing s with
  | nil => exact trivial
  | cons op ops ih =>
    exact ⟨h op (by simp) s, fun _ s' _ => ih (fun op' ho => h op' (by simp [ho])) s'⟩

theorem Meets.mono {step : ω → StateT σ (Except ε) β} (h : Meets step C ops s) (hc : ∀ s op, C s op → C' s op) :
    Meets step C' ops s := by
  induction ops generalizing s with
  | nil => exact trivial
  | cons op ops ih => exact ⟨hc s op h.1, fun out s' he => ih (h.2 out s' he)⟩

theorem Meets.cons {step : ω → StateT σ (Except ε) β} (hc : C s op) (hs : step op s = .ok (out, s'))
    (h : Meets step C ops s') : Meets step C (op :: ops) s := by
  refine ⟨hc, fun _ s₁ h₁ => ?_⟩
  have he : s' = s₁ := congrArg Prod.snd (Except.ok.inj (hs.symm.trans h₁))
  rwa [← he]

/-- What every step of a run keeps if it meets the condition holds in the end. -/
theorem Meets.run {step : ω → StateT σ (Except ε) β} {I : σ → Prop} (h : Meets step C ops s)
    (hs : I s)
    (hstep : ∀ op ∈ ops, ∀ s, I s → C s op → Wp (step op) E (fun _ s' => I s') s) :
    Wp (runWith step ops) E (fun _ s' => I s') s := by
  induction ops generalizing s with
  | nil => exact wp_pure.2 hs
  | cons op ops ih =>
    obtain ⟨hc, hrest⟩ := h
    rw [runWith]
    cases hr : step op s with
    | error e =>
      refine .bind (P := fun _ _ => False) ?_ fun _ _ hf => hf.elim
      have he := (hstep op (by simp) s hs hc).of_eq_error hr
      simpa only [Wp, hr] using he
    | ok r =>
      have h₁ := (hstep op (by simp) s hs hc).of_eq_ok hr
      refine .bind_ok hr (.bind (ih (hrest r.1 r.2 hr) h₁ fun op' ho => hstep op' (by simp [ho])) ?_)
      exact fun _ _ h' => wp_pure.2 h'

/-- What every step keeps, every run keeps. -/
theorem Wp.runWith {step : ω → StateT σ (Except ε) β} {I : σ → Prop} (hs : I s)
    (hstep : ∀ op s, I s → Wp (step op) E (fun _ s' => I s') s) (ops : List ω) :
    Wp (PbsCow.runWith step ops) E (fun _ s' => I s') s :=
  Meets.run (C := fun _ _ => True) (.of_forall (fun _ _ _ => trivial) s) hs
    fun op _ s h _ => hstep op s h

/-- A run meets the condition if what a step that does not meet it brings about does not hold in the
end, and no step undoes it. -/
theorem Meets.of_run {step : ω → StateT σ (Except ε) β} {C : σ → ω → Prop} {J : σ → Prop}
    (hrun : PbsCow.runWith step ops s = .ok (outs, s'))
    (hbad : ∀ op s, ¬ C s op → Wp (step op) AnyError (fun _ s' => J s') s)
    (hkeep : ∀ op s, J s → Wp (step op) AnyError (fun _ s' => J s') s) (hJ : ¬ J s') :
    Meets step C ops s := by
  induction ops generalizing s outs with
  | nil => exact trivial
  | cons op ops ih =>
    rw [PbsCow.runWith] at hrun
    have hlast (s₁ : σ) (h₁ : J s₁) :
        Wp (PbsCow.runWith step ops) AnyError (fun _ s' => J s') s₁ := .runWith h₁ hkeep ops
    refine ⟨?_, fun out s₁ h₁ => ?_⟩
    · refine Classical.byContradiction fun hc => hJ (Wp.of_eq_ok (E := AnyError) (Q := fun _ s' => J s') ?_ hrun)
      exact .bind (hbad op s hc) fun _ s₁ h₁ => .bind (hlast s₁ h₁) fun _ _ h => wp_pure.2 h
    · simp only [bind, StateT.bind, h₁, Except.bind] at hrun
      cases hr : PbsCow.runWith step ops s₁ with
      | error e => simp [hr] at hrun
      | ok r =>
        rw [hr] at hrun
        injection hrun with hrun
        have hs' : r.2 = s' := congrArg Prod.snd hrun
        have hr' : PbsCow.runWith step ops s₁ = .ok (r.1, s') := by rw [hr, ← hs']
        exact ih hr'

/-- A run whose steps meet a condition, with notes that are taken of every step. -/
inductive Traced (step : ω → StateT σ (Except ε) β) (C : σ → ω → Prop) (note : ω → σ → σ → γ → γ)
    (s₀ : σ) (g₀ : γ) : σ → γ → Prop
  | refl : Traced step C note s₀ g₀ s₀ g₀
  | step (h : Traced step C note s₀ g₀ s g) (hc : C s op) (he : step op s = .ok (out, s')) :
    Traced step C note s₀ g₀ s' (note op s s' g)

theorem Traced.keeps {step : ω → StateT σ (Except ε) β} {note : ω → σ → σ → γ → γ}
    {I : σ → γ → Prop} (h : Traced step C note s₀ g₀ s g) (h₀ : I s₀ g₀)
    (hstep : ∀ op s g, I s g → C s op → Wp (step op) AnyError (fun _ s' => I s' (note op s s' g)) s) :
    I s g := by
  induction h with
  | refl => exact h₀
  | step h hc he ih => exact (hstep _ _ _ ih hc).of_eq_ok he

/-- The states of the runs of a step function whose steps meet a condition. -/
inductive Reached (step : σ → ω → σ) (C : σ → ω → Prop) (s₀ : σ) : σ → Prop
  | refl : Reached step C s₀ s₀
  | step (h : Reached step C s₀ s) (op : ω) (hc : C s op) : Reached step C s₀ (step s op)

theorem Reached.keeps {step : σ → ω → σ} {C : σ → ω → Prop} {I : σ → Prop} (h : Reached step C s₀ s)
    (h₀ : I s₀) (hstep : ∀ s op, I s → C s op → I (step s op)) : I s := by
  induction h with
  | refl => exact h₀
  | step h op hc ih => exact hstep _ op ih hc

end PbsCow

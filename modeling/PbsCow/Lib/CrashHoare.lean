import Mathlib.Logic.Basic

namespace PbsCow
set_option autoImplicit true

/-- What the program makes of the state `s`, which is kept where it stops with an error. -/
def runOn (x : ExceptT ε (StateM σ) α) (s : σ) : Except ε α × σ := x s

/-- Started in `s`, the program either returns with `Q`, or stops in a state that meets `C`. -/
def Cwp (x : ExceptT ε (StateM σ) α) (C : ε → σ → Prop) (Q : α → σ → Prop) (s : σ) : Prop :=
  match runOn x s with
  | (.ok a, t) => Q a t
  | (.error e, t) => C e t

theorem Cwp.of_ok {x : ExceptT ε (StateM σ) α} (h : runOn x s = (.ok a, t)) (hq : Q a t) : Cwp x C Q s := by
  simpa only [Cwp, h] using hq

theorem Cwp.of_eq_ok {x : ExceptT ε (StateM σ) α} (hw : Cwp x C Q s) (h : runOn x s = (.ok a, t)) : Q a t := by
  simpa only [Cwp, h] using hw

theorem Cwp.of_eq_error {x : ExceptT ε (StateM σ) α} (hw : Cwp x C Q s) (h : runOn x s = (.error e, t)) :
    C e t := by
  simpa only [Cwp, h] using hw

theorem Cwp.exists_ok {x : ExceptT ε (StateM σ) α} (hw : Cwp x (fun _ _ => False) Q s) :
    ∃ a t, runOn x s = (.ok a, t) ∧ Q a t := by
  cases h : runOn x s with
  | mk r t =>
    cases r with
    | ok a => exact ⟨a, t, rfl, hw.of_eq_ok h⟩
    | error e => exact (hw.of_eq_error h).elim

theorem Cwp.mono {x : ExceptT ε (StateM σ) α} (hw : Cwp x C Q s) (hc : ∀ e t, C e t → C' e t)
    (hq : ∀ a t, Q a t → Q' a t) : Cwp x C' Q' s := by
  rw [Cwp] at hw ⊢
  split
  · next h =>
    rw [h] at hw
    exact hq _ _ hw
  · next h =>
    rw [h] at hw
    exact hc _ _ hw

theorem cwp_bind {x : ExceptT ε (StateM σ) α} {f : α → ExceptT ε (StateM σ) β} :
    Cwp (x >>= f) C Q s ↔ Cwp x C (fun a t => Cwp (f a) C Q t) s := by
  simp only [Cwp, runOn, bind, ExceptT.bind, ExceptT.mk, ExceptT.bindCont, StateT.bind]
  obtain ⟨r, t⟩ := x s
  cases r <;> rfl

/-- The composition rule in the form in which a caller cites the callee's specification. -/
theorem Cwp.bind {x : ExceptT ε (StateM σ) α} {f : α → ExceptT ε (StateM σ) β} (hx : Cwp x C P s)
    (hf : ∀ a t, P a t → Cwp (f a) C Q t) : Cwp (x >>= f) C Q s :=
  cwp_bind.2 (hx.mono (fun _ _ h => h) hf)

theorem cwp_pure : Cwp (pure a : ExceptT ε (StateM σ) α) C Q s ↔ Q a s := .rfl

theorem cwp_get : Cwp (get : ExceptT ε (StateM σ) σ) C Q s ↔ Q s s := .rfl

theorem cwp_modify {f : σ → σ} : Cwp (modify f : ExceptT ε (StateM σ) PUnit) C Q s ↔ Q ⟨⟩ (f s) := .rfl

theorem cwp_throw : Cwp (throw e : ExceptT ε (StateM σ) α) C Q s ↔ C e s := .rfl

theorem Cwp.ite [Decidable c] {x y : ExceptT ε (StateM σ) α} (hx : c → Cwp x C Q s) (hy : ¬c → Cwp y C Q s) :
    Cwp (if c then x else y) C Q s := by
  by_cases h : c
  · rw [if_pos h]
    exact hx h
  · rw [if_neg h]
    exact hy h

end PbsCow

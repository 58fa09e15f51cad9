import Mathlib.Logic.Basic

namespace PbsCow
set_option autoImplicit true

/-- Started in `s`, the program either returns with `Q`, or stops with an error in `E`. -/
def Wp (x : StateT σ (Except ε) α) (E : ε → Prop) (Q : α → σ → Prop) (s : σ) : Prop :=
  match x s with
  | .ok (a, s') => Q a s'
  | .error e => E e

/-- The error postcondition of a program that may not stop with an error. -/
def NoError : ε → Prop := fun _ => False

/-- The error postcondition where only the states that are reached matter. -/
def AnyError : ε → Prop := fun _ => True

theorem Wp.of_ok {x : StateT σ (Except ε) α} (h : x s = .ok (a, s')) (hq : Q a s') :
    Wp x E Q s := by
  simpa only [Wp, h] using hq

theorem Wp.of_eq_ok {x : StateT σ (Except ε) α} (hw : Wp x E Q s) (h : x s = .ok (a, s')) :
    Q a s' := by
  simpa only [Wp, h] using hw

theorem Wp.of_eq_error {x : StateT σ (Except ε) α} (hw : Wp x E Q s)
    (h : x s = .error e) : E e := by
  simpa only [Wp, h] using hw

theorem Wp.exists_ok {x : StateT σ (Except ε) α} (hw : Wp x NoError Q s) :
    ∃ a s', x s = .ok (a, s') ∧ Q a s' := by
  cases h : x s with
  | ok r => exact ⟨r.1, r.2, rfl, hw.of_eq_ok h⟩
  | error e => exact (hw.of_eq_error h).elim

theorem Wp.mono {x : StateT σ (Except ε) α} (hw : Wp x E Q s)
    (hq : ∀ a s', Q a s' → Q' a s') : Wp x E Q' s := by
  cases h : x s with
  | ok r => exact .of_ok h (hq _ _ (hw.of_eq_ok h))
  | error e => simpa only [Wp, h] using hw.of_eq_error h

theorem Wp.weaken {x : StateT σ (Except ε) α} (hw : Wp x E Q s)
    (he : ∀ e, E e → E' e) : Wp x E' Q s := by
  cases h : x s with
  | ok r => exact .of_ok h (hw.of_eq_ok h)
  | error e => simpa only [Wp, h] using he e (hw.of_eq_error h)

theorem Wp.and {x : StateT σ (Except ε) α} (hw : Wp x E Q s) (hw' : Wp x E' Q' s) :
    Wp x E (fun a t => Q a t ∧ Q' a t) s := by
  cases h : x s with
  | ok r => exact .of_ok h ⟨hw.of_eq_ok h, hw'.of_eq_ok h⟩
  | error e => simpa only [Wp, h] using hw.of_eq_error h

theorem Wp.of_forall {x : StateT σ (Except ε) α} (h : ∀ a s', Q a s') : Wp x AnyError Q s := by
  cases hx : x s with
  | ok r => exact .of_ok hx (h _ _)
  | error e => simp only [Wp, hx, AnyError]

theorem wp_bind {x : StateT σ (Except ε) α} {f : α → StateT σ (Except ε) β} :
    Wp (x >>= f) E Q s ↔ Wp x E (fun a s' => Wp (f a) E Q s') s := by
  simp only [Wp, bind, StateT.bind]
  cases x s <;> rfl

/-- The composition rule in the form in which a caller cites the callee's specification. -/
theorem Wp.bind {x : StateT σ (Except ε) α} {f : α → StateT σ (Except ε) β}
    (hx : Wp x E P s) (hf : ∀ a s', P a s' → Wp (f a) E Q s') : Wp (x >>= f) E Q s :=
  wp_bind.2 (hx.mono hf)

theorem Wp.bind_ok {x : StateT σ (Except ε) α} {f : α → StateT σ (Except ε) β}
    (hx : x s = .ok (a, s')) (hf : Wp (f a) E Q s') : Wp (x >>= f) E Q s :=
  wp_bind.2 (.of_ok hx hf)

@[simp] theorem wp_pure : Wp (pure a : StateT σ (Except ε) α) E Q s ↔ Q a s := .rfl

@[simp] theorem wp_get : Wp (get : StateT σ (Except ε) σ) E Q s ↔ Q s s := .rfl

@[simp] theorem wp_set : Wp (set t : StateT σ (Except ε) PUnit) E Q s ↔ Q ⟨⟩ t := .rfl

@[simp] theorem wp_modify {f : σ → σ} :
    Wp (modify f : StateT σ (Except ε) PUnit) E Q s ↔ Q ⟨⟩ (f s) := .rfl

@[simp] theorem wp_throw : Wp (throw e : StateT σ (Except ε) α) E Q s ↔ E e := .rfl

@[simp] theorem wp_map {f : α → β} {x : StateT σ (Except ε) α} :
    Wp (f <$> x) E Q s ↔ Wp x E (fun a => Q (f a)) s := by
  simp only [Wp, Functor.map, StateT.map, bind, Except.bind]
  cases x s <;> rfl

theorem wp_ite [Decidable c] {x y : StateT σ (Except ε) α} :
    Wp (if c then x else y) E Q s ↔ (c → Wp x E Q s) ∧ (¬c → Wp y E Q s) := by
  by_cases h : c <;> simp [h]

theorem Wp.ite [Decidable c] {x y : StateT σ (Except ε) α} (hx : c → Wp x E Q s)
    (hy : ¬c → Wp y E Q s) : Wp (if c then x else y) E Q s :=
  wp_ite.2 ⟨hx, hy⟩

theorem Wp.ite_pos [Decidable c] {x y : StateT σ (Except ε) α} (hc : c) (h : Wp x E Q s) :
    Wp (if c then x else y) E Q s := by
  rwa [if_pos hc]

theorem Wp.ite_neg [Decidable c] {x y : StateT σ (Except ε) α} (hc : ¬c) (h : Wp y E Q s) :
    Wp (if c then x else y) E Q s := by
  rwa [if_neg hc]

attribute [simp] wp_bind

/-- Run a program on a component of a larger state. -/
def zoom (get : τ → σ) (put : σ → τ → τ) (x : StateT σ (Except ε) α) : StateT τ (Except ε) α :=
  fun t => match x (get t) with
    | .ok (a, s) => .ok (a, put s t)
    | .error e => .error e

theorem wp_zoom {get : τ → σ} {put : σ → τ → τ} {x : StateT σ (Except ε) α} :
    Wp (zoom get put x) E Q t ↔ Wp x E (fun a s => Q a (put s t)) (get t) := by
  simp only [Wp, zoom]
  cases x (get t) <;> rfl

end PbsCow

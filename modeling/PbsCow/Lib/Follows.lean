import PbsCow.Lib.Hoare

namespace PbsCow
set_option autoImplicit true

/-- Run a program on a component of a larger state, with its errors among the larger errors. -/
def embed (get : τ → σ) (put : σ → τ → τ) (wrap : ε' → ε) (x : StateT σ (Except ε') α) :
    StateT τ (Except ε) α :=
  fun t => match x (get t) with
    | .ok (a, s) => .ok (a, put s t)
    | .error e => .error (wrap e)

theorem wp_embed {get : τ → σ} {put : σ → τ → τ} {wrap : ε' → ε} {x : StateT σ (Except ε') α} :
    Wp (embed get put wrap x) E Q t ↔
      Wp x (fun e => E (wrap e)) (fun a s => Q a (put s t)) (get t) := by
  simp only [Wp, embed]
  cases x (get t) <;> rfl

theorem zoom_pure {get : τ → σ} {put : σ → τ → τ} (hput : ∀ t, put (get t) t = t) (a : α) :
    zoom get put (pure a : StateT σ (Except ε) α) = pure a := by
  funext t
  change Except.ok (a, put (get t) t) = Except.ok (a, t)
  rw [hput]

theorem zoom_bind {get : τ → σ} {put : σ → τ → τ} (hget : ∀ s t, get (put s t) = s)
    (hput : ∀ s s' t, put s' (put s t) = put s' t) (x : StateT σ (Except ε) α)
    (f : α → StateT σ (Except ε) β) :
    zoom get put (x >>= f) = zoom get put x >>= fun a => zoom get put (f a) := by
  funext t
  simp only [zoom, Bind.bind, StateT.bind, Except.bind]
  cases hx : x (get t) with
  | error e => rfl
  | ok r =>
    simp only [hget]
    cases f r.1 r.2 with
    | error e => rfl
    | ok r' => simp only [hput]

section

variable (get : τ → σ) (wrap : ε' → ε)

/-- What `x` does to the component `get` of its state is what `y` does, unless `x` stops with an error
that is none of `y`'s. -/
def Follows (x : StateT τ (Except ε) α) (y : StateT σ (Except ε') α) (t : τ) : Prop :=
  Wp x (fun e => ∀ e', e = wrap e' → y (get t) = .error e') (fun a t' => y (get t) = .ok (a, get t')) t

variable {get wrap}

theorem Follows.pure (a : α) (t : τ) :
    Follows get wrap (pure a : StateT τ (Except ε) α) (pure a : StateT σ (Except ε') α) t := rfl

theorem Follows.bind {x : StateT τ (Except ε) α} {y : StateT σ (Except ε') α}
    {f : α → StateT τ (Except ε) β} {g : α → StateT σ (Except ε') β} (hx : Follows get wrap x y t)
    (hf : ∀ a t', Follows get wrap (f a) (g a) t') : Follows get wrap (x >>= f) (y >>= g) t := by
  have hy {r : Except ε' (α × σ)} (h : y (get t) = r) : (y >>= g) (get t) = r.bind fun r => g r.1 r.2 := by
    rw [← h]
    rfl
  apply Wp.bind (hx.weaken fun e he e' hw => by rw [hy (he e' hw)]; rfl)
  intro a t' h
  apply ((hf a t').mono fun b t'' h' => by rw [hy h, ← h']; rfl).weaken
  intro e he e' hw
  rw [hy h, ← he e' hw]
  rfl

/-- A step that does not touch the component. -/
theorem Follows.skip {x : StateT τ (Except ε) α} {f : α → StateT τ (Except ε) β}
    {y : StateT σ (Except ε') β} (hx : Wp x (fun e => ∀ e', e ≠ wrap e') (fun _ t' => get t' = get t) t)
    (hf : ∀ a t', Follows get wrap (f a) y t') : Follows get wrap (x >>= f) y t := by
  apply Wp.bind (hx.weaken fun e he e' hw => (he e' hw).elim)
  intro a t' h
  have hy := hf a t'
  rwa [Follows, h] at hy

theorem Follows.right_get {x : StateT τ (Except ε) α} {g : σ → StateT σ (Except ε') α}
    (h : Follows get wrap x (g (get t)) t) : Follows get wrap x (MonadState.get >>= g) t := h

theorem Follows.left_get {f : τ → StateT τ (Except ε) α} {y : StateT σ (Except ε') α}
    (h : Follows get wrap (f t) y t) : Follows get wrap (MonadState.get >>= f) y t := h

theorem Follows.ite [Decidable c] {x x' : StateT τ (Except ε) α} {y y' : StateT σ (Except ε') α}
    (hx : Follows get wrap x y t) (hy : Follows get wrap x' y' t) :
    Follows get wrap (if c then x else x') (if c then y else y') t := by
  by_cases h : c
  · rwa [if_pos h, if_pos h]
  · rwa [if_neg h, if_neg h]

theorem Follows.embed {put : σ → τ → τ} (hget : ∀ s t, get (put s t) = s) (hw : Function.Injective wrap)
    (y : StateT σ (Except ε') α) (t : τ) : Follows get wrap (embed get put wrap y) y t := by
  rw [Follows, wp_embed, Wp]
  cases h : y (get t) with
  | ok r => exact congrArg (fun s => Except.ok (r.1, s)) (hget r.2 t).symm
  | error e => exact fun e' he => by rw [hw he]

/-- What is known of the followed program holds of the follower. -/
theorem Follows.wp {x : StateT τ (Except ε) α} {y : StateT σ (Except ε') α} (h : Follows get wrap x y t)
    (hy : Wp y E Q (get t)) :
    Wp x (fun e => ∀ e', e = wrap e' → E e') (fun a t' => Q a (get t')) t :=
  (h.mono fun _ _ h' => hy.of_eq_ok h').weaken fun _ he e' hw => hy.of_eq_error (he e' hw)

end

end PbsCow

import Mathlib.Algebra.Group.Basic
import PbsCow.Lib.Hoare

namespace PbsCow
set_option autoImplicit true

section

variable {σ ε G α β : Type} [AddCommGroup G] (bal : σ → G)

/-- Whenever `x` returns, it has changed the balance by what `d` says about its result. -/
def Shifts (x : StateT σ (Except ε) α) (d : α → G) : Prop :=
  ∀ s, Wp x AnyError (fun a s' => bal s' = bal s + d a) s

variable {bal} {d : α → G} {e : β → G} {f : σ → σ}

theorem Shifts.pure (h : d a = 0) : Shifts bal (pure a : StateT σ (Except ε) α) d := by
  intro s
  rw [wp_pure, h, add_zero]

theorem Shifts.throw (err : ε) : Shifts bal (throw err : StateT σ (Except ε) α) d := fun _ => trivial

theorem Shifts.update {c : G} (h : ∀ s, bal (f s) = bal s + c) :
    Shifts bal (modify f : StateT σ (Except ε) PUnit) fun _ => c := h

theorem Shifts.still (h : ∀ s, bal (f s) = bal s) :
    Shifts bal (modify f : StateT σ (Except ε) PUnit) fun _ => 0 :=
  .update fun s => by rw [h, add_zero]

theorem Shifts.bind {x : StateT σ (Except ε) α} {f : α → StateT σ (Except ε) β} (hx : Shifts bal x d)
    (hf : ∀ a, Shifts bal (f a) fun b => e b - d a) : Shifts bal (x >>= f) e := by
  intro s
  apply (hx s).bind
  intro a s' h
  apply (hf a s').mono
  intro b s'' h'
  rw [h', h, add_assoc, add_sub_cancel]

/-- What leaves the balance as it is does not matter to what follows. -/
theorem Shifts.seq {x : StateT σ (Except ε) α} {f : α → StateT σ (Except ε) β}
    (hx : Shifts bal x fun _ => 0) (hf : ∀ a, Shifts bal (f a) e) : Shifts bal (x >>= f) e :=
  .bind hx fun a => by simpa only [sub_zero] using hf a

theorem Shifts.get {f : σ → StateT σ (Except ε) β} (h : ∀ s, Shifts bal (f s) e) :
    Shifts bal (get >>= f) e := fun s => h s s

theorem Shifts.ite [Decidable c] {x y : StateT σ (Except ε) α} (hx : c → Shifts bal x d)
    (hy : ¬c → Shifts bal y d) : Shifts bal (if c then x else y) d :=
  fun s => .ite (fun hc => hx hc s) fun hc => hy hc s

theorem Shifts.congr {x : StateT σ (Except ε) α} {d' : α → G} (hx : Shifts bal x d)
    (h : ∀ a, d a = d' a) : Shifts bal x d' := by
  rwa [← funext h]

end

end PbsCow

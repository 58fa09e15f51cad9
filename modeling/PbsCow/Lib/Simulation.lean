import PbsCow.Lib.Hoare
import PbsCow.Lib.Runs

namespace PbsCow
set_option autoImplicit true

/-- The program leaves `I` true where it does not fail. -/
def Maintains (I : σ → Prop) (x : StateT σ (Except ε) α) : Prop :=
  ∀ s, I s → Wp x AnyError (fun _ t => I t) s

section

variable {I : σ → Prop} {x : StateT σ (Except ε) α} {f : α → StateT σ (Except ε) β}

theorem maintains_pure (a : α) : Maintains I (pure a : StateT σ (Except ε) α) := fun _ h => wp_pure.2 h

theorem maintains_throw (e : ε) : Maintains I (throw e : StateT σ (Except ε) α) := fun _ _ => trivial

theorem maintains_modify {g : σ → σ} (hg : ∀ s, I s → I (g s)) :
    Maintains I (modify g : StateT σ (Except ε) PUnit) := fun s hs => wp_modify.2 (hg s hs)

theorem Maintains.bind (hx : Maintains I x) (hf : ∀ a, Maintains I (f a)) : Maintains I (x >>= f) :=
  fun s hs => (hx s hs).bind fun a t ht => hf a t ht

theorem Maintains.get {f : σ → StateT σ (Except ε) β} (hf : ∀ s, I s → Maintains I (f s)) :
    Maintains I (get >>= f) := by
  intro s hs
  rw [wp_bind, wp_get]
  exact hf s hs s hs

theorem Maintains.modify {g : σ → σ} {y : PUnit → StateT σ (Except ε) β} (hg : ∀ s, I s → I (g s))
    (hy : Maintains I (y ⟨⟩)) : Maintains I (modify g >>= y) := by
  intro s hs
  rw [wp_bind, wp_modify]
  exact hy _ (hg s hs)

theorem Maintains.ite [Decidable c] {y : StateT σ (Except ε) α} (hx : c → Maintains I x) (hy : ¬c → Maintains I y) :
    Maintains I (if c then x else y) :=
  fun s hs => Wp.ite (fun hc => hx hc s hs) fun hc => hy hc s hs

end

/-- The runs of a transition system, with what the steps return. -/
inductive Steps (R : ω → σ → β → σ → Prop) : List ω → σ → List β → σ → Prop
  | nil : Steps R [] s [] s
  | cons (h : R op s out s') (hs : Steps R ops s' outs s'') : Steps R (op :: ops) s (out :: outs) s''

/-- What every step of a run keeps. -/
theorem Steps.keeps {R : ω → σ → β → σ → Prop} {I : σ → Prop} (h : Steps R ops s outs s') (hs : I s)
    (hstep : ∀ op ∈ ops, ∀ s out s', I s → R op s out s' → I s') : I s' := by
  induction h with
  | nil => exact hs
  | cons h _ ih =>
    apply ih
    · exact hstep _ (List.mem_cons_self ..) _ _ _ hs h
    · exact fun op ho => hstep op (List.mem_cons_of_mem _ ho)

/-- Where every step is one of a transition system, seen through `abs`, every run is one of its runs. -/
theorem Wp.simulates {step : ω → StateT σ (Except ε) β} {I : σ → Prop} (abs : σ → τ)
    {R : ω → τ → β → τ → Prop} (hs : I s) (ops : List ω) (hstep : ∀ op ∈ ops, ∀ s, I s →
      Wp (step op) E (fun out s' => I s' ∧ R op (abs s) out (abs s')) s) :
    Wp (PbsCow.runWith step ops) E (fun outs s' => I s' ∧ Steps R ops (abs s) outs (abs s')) s := by
  induction ops generalizing s with
  | nil => exact wp_pure.2 ⟨hs, .nil⟩
  | cons op ops ih =>
    rw [PbsCow.runWith]
    apply (hstep op (List.mem_cons_self ..) s hs).bind
    intro out s' hone
    apply (ih hone.1 fun op' ho => hstep op' (List.mem_cons_of_mem _ ho)).bind
    intro outs s'' hall
    exact wp_pure.2 ⟨hall.1, .cons hone.2 hall.2⟩

end PbsCow

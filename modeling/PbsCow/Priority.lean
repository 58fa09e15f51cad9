import PbsCow.Framed
import PbsCow.Pick
import PbsCow.Userinit

namespace PbsCow
set_option autoImplicit true

/-- What holds of every slot before holds of every slot after. -/
def Passes (P : Proc → Prop) (t t' : Sys) : Prop := (∀ i, P (t.proc i)) → ∀ i, P (t'.proc i)

/-- Properties of what the scheduler compares that the rest of the kernel keeps. -/
structure Stable (P : Proc → Prop) : Prop where
  same : ∀ {q q' : Proc}, P q → q'.sched = q.sched → P q'
  zero : P .zero
  init : ∀ {q : Proc}, q.sched = (50, 0, 0) → P q
  pri : ∀ {q : Proc} {n : Int}, 0 ≤ n → n ≤ 100 → P q → P { q with static_pri := BitVec.ofInt 32 n }

theorem Passes.setProc {t : Sys} {p : Slot} {f : Proc → Proc}
    (hf : P (t.proc p) → P (f (t.proc p))) : Passes P t (t.setProc p f) := by
  intro h i
  by_cases hi : i = p
  · subst hi
    rw [t.setProc_self]
    exact hf (h i)
  · rw [t.setProc_of_ne hi]
    exact h i

theorem Stable.framed (h : Stable P) : Framed (Passes P) where
  trans h₁ h₂ ht := h₂ (h₁ ht)
  frame _ hf ht i := h.same (ht i) (hf i).sched
  alloc {t _} _ := Passes.setProc (t := { t with nextpid := t.nextpid + 1 }) fun hp => h.same hp rfl
  init := Passes.setProc fun _ => h.init rfl
  free := Passes.setProc fun hp => h.same hp rfl
  setPriority h0 h100 := Passes.setProc fun hp => h.same (h.pri h0 h100 hp) rfl

/-- An operation of a process. -/
theorem Stable.step {t : Sys} (h : Stable P) (ht : ∀ i, P (t.proc i)) (op : Op) :
    Wp (step L op) AnyError (fun _ t' => ∀ i, P (t'.proc i)) t := by
  have := h.framed
  refine (Framed.step (R := Passes P) (fun p _ t' _ => Passes.setProc fun hp => h.same hp rfl) ?_).mono
    fun _ _ h' => h' ht
  rintro p regs pid rfl _ _ t₁ _
  have hscan (l : List Slot) : Moves (Passes P) (killScan pid l) := by
    induction l with
    | nil => exact .pure _
    | cons p l ih =>
      rw [killScan]
      refine .get fun t => .ite (.bind (fun t => wp_setProc.2 ?_) fun _ => .pure _) ih
      exact Passes.setProc fun hp => h.same hp rfl
  exact hscan _ t₁

theorem Stable.boot (h : Stable P) (L : Layout) (ram : Nat → Page) :
    Wp (boot L) AnyError (fun _ t => ∀ i, P (t.proc i)) (Sys.start ram) := by
  have := h.framed
  have huser : Moves (Passes P) (userinit L) := by
    rw [userinit]
    refine .bind (.allocproc L) ?_
    rintro (_ | p)
    · exact .throw _
    refine .bind (.modify fun t => Gentle.of_same rfl rfl) fun _ => .get fun t => ?_
    refine .bind (.onMem _) fun _ => .bind (.setProc fun _ => ⟨⟨rfl, rfl, fun h => h⟩, rfl, rfl⟩) fun _ => ?_
    exact .bind (.onMem _) fun _ => .bind (.onMem _) fun _ => .setProc fun _ => ⟨⟨rfl, rfl, by simp⟩, rfl, rfl⟩
  have hboot : Moves (Passes P) (PbsCow.boot L) := by
    rw [PbsCow.boot]
    refine .bind (.onMem _) fun _ => .bind (.onMem _) fun _ => ?_
    refine .bind (.modify fun t => Gentle.of_same rfl rfl) fun _ => ?_
    refine .bind (.modify fun t ht i => h.same (ht i) rfl) fun _ => .bind (.onMem _) fun _ => ?_
    exact .bind (.modify fun t => Gentle.of_same rfl rfl) fun _ => huser
  exact (hboot _).mono fun _ _ ht => ht fun _ => h.zero

theorem Stable.onSys_boot (h : Stable P) (L : Layout) (ram : Nat → Page) (beyond : Nat → BitVec 32) :
    Wp (onSys (PbsCow.boot L)) AnyError (fun _ m => ∀ i, P (m.sys.proc i)) (Machine.start ram beyond) :=
  wp_zoom.2 (h.boot L ram)

theorem Stable.clockintr {t : Sys} (h : Stable P) (ht : ∀ i, P (t.proc i)) (me : Option Slot) :
    Wp (clockintr me) AnyError (fun _ t' => ∀ i, P (t'.proc i)) t := by
  have := h.framed
  have hwake := Gentle.wakeup (R := Passes P)
  simp only [PbsCow.clockintr, wp_bind, wp_modify]
  refine hwake _ me .ticks fun i => ?_
  have htime : P (({ t with ticks := t.ticks + 1 } : Sys).updateTime.proc i) := by
    simp only [Sys.updateTime]
    split
    · exact h.same (ht i) rfl
    · exact ht i
  simp only [Sys.countTicks]
  split <;> exact h.same htime rfl

/-- An event, if the scans that it makes keep the property. -/
theorem Stable.event {m : Machine} (h : Stable P) (hm : ∀ i, P (m.sys.proc i)) (ev : Event)
    (hr : ∀ c, ev = .round c → m.cpu c = none → ∀ i, P (m.sys.proc i).refresh) :
    Wp (Machine.event L ev) AnyError (fun _ m' => ∀ i, P (m'.sys.proc i)) m := by
  cases ev with
  | round c =>
    have hscan (hc : m.cpu c = none) (i : Slot) : P ((m.scanned (List.finRange NPROC)).sys.proc i) := by
      rw [m.scanned_proc i]
      exact hr c rfl hc i
    refine wp_round (fun _ => hm) (fun hc _ => hscan hc) fun p hc _ _ => ?_
    exact Passes.setProc (P := P) (p := p) (f := fun q => { q with state := .RUNNING })
      (fun hp => h.same hp rfl) (hscan hc)
  | user c op => exact wp_user (Q := fun t => ∀ i, P (t.proc i)) (fun _ => hm) fun _ _ _ => h.step hm op
  | tick =>
    rw [Machine.event, wp_bind, wp_get, onSys, wp_zoom]
    exact h.clockintr hm _

end PbsCow

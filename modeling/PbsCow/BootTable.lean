import PbsCow.CleanSlots

namespace PbsCow
set_option autoImplicit true

/-- `userinit` takes one slot. -/
theorem userinit_table {t : Sys} :
    Wp (userinit L) AnyError (fun _ t' => ∃ p, Taken p t t' ∧ (t'.proc p).Newborn) t := by
  rw [userinit]
  refine .bind (allocproc_table (K := fun _ => False)) ?_
  rintro (_ | p) t₁ h₁
  · exact trivial
  obtain ⟨h₁, _, hnew⟩ := h₁
  dsimp only
  rw [wp_bind, wp_modify, wp_bind, wp_get]
  have h₂ : Taken p t { t₁ with initproc := some p } := h₁.same rfl rfl
  refine .bind Tidy.onMem ?_
  rintro _ t₃ ⟨hp₃, hn₃⟩
  have h₃ := h₂.same hp₃ hn₃
  rw [wp_bind, wp_setProc]
  have h₄ := h₃.setProc (f := fun q => { q with sz := PGSIZE }) h₃.state rfl rfl
  refine .bind Tidy.onMem ?_
  rintro _ t₅ ⟨hp₅, hn₅⟩
  refine .bind Tidy.onMem ?_
  rintro _ t₆ ⟨hp₆, hn₆⟩
  refine ⟨p, ((h₄.same hp₅ hn₅).same hp₆ hn₆).setProc (by simp) rfl rfl, ?_⟩
  rw [Sys.setProc_self, hp₆, hp₅, Sys.setProc_self, hp₃]
  exact ⟨hnew.my_wtime, hnew.my_rtime, hnew.my_stime, hnew.static_pri, hnew.rbi⟩

/-- The table of a kernel that has booted: one process, which has pid 1, and slots that are zero. -/
structure BootTable (t : Sys) : Prop where
  marked : Marked t
  pid : ∀ i, (t.proc i).state ≠ .UNUSED → (t.proc i).pid = 1
  newborn : ∀ i, (t.proc i).state ≠ .UNUSED → (t.proc i).Newborn
  zero : ∀ i, (t.proc i).state = .UNUSED → t.proc i = .zero
  next : t.nextpid = 2

theorem Taken.bootTable {t t' : Sys} (h : Taken p t t') (hnew : (t'.proc p).Newborn)
    (hp : ∀ i, t.proc i = .zero) (hn : t.nextpid = 1) : BootTable t' := by
  have hother (i : Slot) (hi : i ≠ p) : t'.proc i = .zero := (h.other i hi).trans (hp i)
  have hself (i : Slot) (hi : (t'.proc i).state ≠ .UNUSED) : i = p := by
    by_contra hip
    rw [hother i hip] at hi
    exact hi rfl
  refine ⟨Marked.tidy ⟨by omega, fun i _ => ?_, fun i _ => ?_⟩ (h.tidy (K := fun _ => False)),
    fun i hi => ?_, fun i hi => ?_, fun i hi => hother i ?_, by rw [h.next, hn]; rfl⟩
  · rw [hp]
    rfl
  · rw [hp]
    rfl
  · rw [hself i hi]
    exact h.pid.trans hn
  · rw [hself i hi]
    exact hnew
  · rintro rfl
    exact h.state hi

theorem boot_table (L : Layout) (ram : Nat → Page) :
    Wp (boot L) AnyError (fun _ t => BootTable t) (Sys.start ram) := by
  rw [boot]
  refine .bind Tidy.onMem ?_
  rintro _ t₁ ⟨hp₁, hn₁⟩
  refine .bind Tidy.onMem ?_
  rintro k t₂ ⟨hp₂, hn₂⟩
  rw [wp_bind, wp_modify, wp_bind, wp_modify]
  refine .bind Tidy.onMem ?_
  rintro disk t₃ ⟨hp₃, hn₃⟩
  rw [wp_bind, wp_modify]
  refine userinit_table.mono ?_
  rintro _ t' ⟨p, h, hnew⟩
  refine h.bootTable hnew (fun i => ?_) ((hn₃.trans hn₂).trans hn₁)
  show t₃.proc i = _
  rw [hp₃]
  show { t₂.proc i with state := .UNUSED } = Proc.zero
  rw [hp₂, hp₁]
  rfl

/-- No process has a parent. -/
def Sys.Orphans (t : Sys) : Prop := ∀ i, (t.proc i).parent = none

theorem Sys.Orphans.setProc {t : Sys} (h : t.Orphans) (hf : (f (t.proc p)).parent = (t.proc p).parent) :
    (t.setProc p f).Orphans := by
  intro i
  by_cases hi : i = p
  · rw [hi, t.setProc_self, hf]
    exact h p
  · rw [t.setProc_of_ne hi]
    exact h i

theorem Sys.Orphans.onMem {x : Kern α} {t : Sys} (h : t.Orphans) :
    Wp (PbsCow.onMem x) AnyError (fun _ t' => t'.Orphans) t := by
  refine Tidy.onMem.mono fun _ t' ht' i => ?_
  rw [ht'.1]
  exact h i

/-- A new process has no parent before its parent says so. -/
theorem Sys.Orphans.allocproc {t : Sys} (h : t.Orphans) :
    Wp (PbsCow.allocproc L) AnyError (fun ret t' => ret ≠ none → t'.Orphans) t := by
  have hfail (p : Slot) (t : Sys) : Wp (do freeproc L p; return (none : Option Slot)) AnyError
      (fun ret t' => ret ≠ none → t'.Orphans) t :=
    .bind (P := fun _ _ => True) (.of_forall fun _ _ => trivial)
      fun _ _ _ => wp_pure.2 fun hne => (hne rfl).elim
  rw [PbsCow.allocproc, wp_bind, wp_get]
  cases (List.finRange NPROC).find? fun p => (t.proc p).state = .UNUSED with
  | none => exact wp_pure.2 fun hne => (hne rfl).elim
  | some p =>
    simp only [allocpid, wp_bind, wp_get, wp_modify, wp_pure, wp_setProc]
    have h₁ : ({ t with nextpid := t.nextpid + 1 } : Sys).Orphans := h
    refine (h₁.setProc (p := p) rfl).onMem.mono ?_
    rintro trapframe t₂ h₂
    have h₃ := h₂.setProc (f := fun q => { q with trapframe := trapframe }) (p := p) rfl
    refine .ite (fun _ => hfail p _) fun _ => wp_bind.2 (h₃.onMem.mono ?_)
    rintro pagetable t₄ h₄
    rw [wp_bind, wp_setProc]
    have h₅ := h₄.setProc (f := fun q => { q with pagetable := pagetable }) (p := p) rfl
    refine .ite (fun _ => hfail p _) fun _ => ?_
    simp only [wp_bind, wp_get, wp_setProc, wp_pure]
    exact fun _ => h₅.setProc rfl

theorem Sys.Orphans.userinit {t : Sys} (h : t.Orphans) :
    Wp (PbsCow.userinit L) AnyError (fun _ t' => t'.Orphans) t := by
  rw [PbsCow.userinit]
  refine .bind h.allocproc ?_
  rintro (_ | p) t₁ h₁
  · exact trivial
  have h₁ : ({ t₁ with initproc := some p } : Sys).Orphans := h₁ (by simp)
  dsimp only
  rw [wp_bind, wp_modify, wp_bind, wp_get]
  refine .bind h₁.onMem fun _ t₃ h₃ => ?_
  rw [wp_bind, wp_setProc]
  refine .bind (h₃.setProc rfl).onMem fun _ t₄ h₄ => ?_
  exact .bind h₄.onMem fun _ t₅ h₅ => wp_setProc.2 (h₅.setProc rfl)

theorem boot_orphans (L : Layout) (ram : Nat → Page) :
    Wp (boot L) AnyError (fun _ t => t.Orphans) (Sys.start ram) := by
  have h₀ : (Sys.start ram).Orphans := fun _ => rfl
  rw [boot]
  refine .bind h₀.onMem fun _ t₁ h₁ => .bind h₁.onMem fun k t₂ h₂ => ?_
  rw [wp_bind, wp_modify, wp_bind, wp_modify]
  have h₂ : ({ t₂ with kernel_pagetable := k, proc := fun i => { t₂.proc i with state := .UNUSED } } : Sys).Orphans :=
    h₂
  refine .bind h₂.onMem fun disk t₃ h₃ => ?_
  rw [wp_bind, wp_modify]
  have h₃ : ({ t₃ with disk := disk } : Sys).Orphans := h₃
  exact h₃.userinit

end PbsCow

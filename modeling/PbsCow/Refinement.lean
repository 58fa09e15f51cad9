import PbsCow.Userinit

namespace PbsCow
set_option autoImplicit true

/-- The layout of the image that the Makefile links. -/
def imageLayout : Layout where
  trampoline := 0x80007000
  kend := 0x802427b8
  kernbase_le := by decide
  trampoline_aligned := by decide
  etext_le := by decide
  room := by decide

theorem Reachable.boot (L : Layout) (ram : Nat → Page) :
    ∃ t p g r x, (do PbsCow.boot L; PbsCow.run L []) (Sys.start ram) = .ok ([], t) ∧
      Reachable L t ∧ Booted L t p .RUNNABLE g r x := by
  obtain ⟨_, t, ht, p, g, r, x, hb⟩ := (boot_spec L ram).exists_ok
  have hrun : (do PbsCow.boot L; PbsCow.run L []) (Sys.start ram) = .ok ([], t) := by
    simp only [PbsCow.run, bind, StateT.bind, ht, Except.bind]
    rfl
  exact ⟨t, p, g, r, x, hrun, ⟨ram, [], [], hrun⟩, hb⟩

theorem run_dispatch {t : Sys} (hp : (t.proc p).state = .RUNNABLE) :
    run L [.dispatch p] t = .ok ([.done], t.setProc p fun q => { q with state := .RUNNING }) := by
  have hstep : step L (.dispatch p) t =
      .ok (.done, t.setProc p fun q => { q with state := .RUNNING }) := by
    simp only [step, whenState, get, getThe, MonadStateOf.get, StateT.get, bind, StateT.bind,
      Except.bind, pure, Except.pure, hp, if_true]
    rfl
  simp only [run, bind, StateT.bind, hstep, Except.bind]
  rfl

/-- The first process is switched to. -/
theorem Booted.dispatch {t : Sys} (h : Booted L t p .RUNNABLE g r x) :
    ∃ t', run L [.dispatch p] t = .ok ([.done], t') ∧ Booted L t' p .RUNNING g r x := by
  have hsame := t.setProc_sameMem (i := p) (f := fun q => { q with state := .RUNNING }) ⟨rfl, rfl, rfl⟩
  have hq : Quiet t (t.setProc p fun q => { q with state := .RUNNING }) :=
    .setProc rfl (fun _ => ⟨rfl, rfl, rfl⟩) (by rw [h.state]; simp) (by simp) (by simp)
  refine ⟨t.setProc p fun q => { q with state := .RUNNING }, ?_, h.inv.sameMem hsame,
    (hq.inv h.toInv).settled, h.init, fun j hj => ?_, ?_, ?_, ?_, ?_, ?_, h.pte, h.lt, h.page, h.free⟩
  · exact run_dispatch h.state
  · rw [t.setProc_of_ne hj]
    exact h.alone j hj
  · rw [t.setProc_self]
  · rw [t.setProc_self]
    exact h.killed
  · rw [t.setProc_self]
    exact h.sz
  · rw [t.setProc_self]
    exact h.root
  · rw [hsame.roots]
    exact h.mem

theorem run_append {t t' t'' : Sys} (h : run L ops t = .ok (outs, t')) (h' : run L ops' t' = .ok (outs', t'')) :
    run L (ops ++ ops') t = .ok (outs ++ outs', t'') := by
  induction ops generalizing t outs with
  | nil =>
    obtain ⟨rfl, rfl⟩ : outs = [] ∧ t' = t := by
      injection h with h
      injection h with h1 h2
      exact ⟨h1.symm, h2.symm⟩
    exact h'
  | cons op ops ih =>
    rw [run] at h
    rw [List.cons_append, run]
    simp only [bind, StateT.bind, Except.bind] at h ⊢
    cases hs : step L op t with
    | error e =>
      rw [hs] at h
      cases h
    | ok r =>
      rw [hs] at h
      simp only at h ⊢
      cases hr : run L ops r.2 with
      | error e =>
        rw [hr] at h
        cases h
      | ok r' =>
        rw [hr] at h
        simp only at h
        injection h with h
        injection h with h1 h2
        rw [ih (by rw [hr, ← h2]), ← h1]
        rfl

theorem Reachable.run {t t' : Sys} (h : Reachable L t) (hr : run L ops t = .ok (outs, t')) :
    Reachable L t' := by
  obtain ⟨ram, ops₀, outs₀, h₀⟩ := h
  refine ⟨ram, ops₀ ++ ops, outs₀ ++ outs, ?_⟩
  simp only [bind, StateT.bind, Except.bind] at h₀ ⊢
  cases hb : PbsCow.boot L (Sys.start ram) with
  | error e =>
    rw [hb] at h₀
    cases h₀
  | ok r =>
    rw [hb] at h₀
    exact run_append h₀ hr

theorem Reachable.init (L : Layout) (ram : Nat → Page) :
    ∃ t p g r x, (do PbsCow.boot L; PbsCow.run L [.dispatch p]) (Sys.start ram) = .ok ([.done], t) ∧
      Reachable L t ∧ Booted L t p .RUNNING g r x := by
  obtain ⟨_, t, ht, p, g, r, x, hb⟩ := (boot_spec L ram).exists_ok
  obtain ⟨t', hrun, hb'⟩ := hb.dispatch
  have hall : (do PbsCow.boot L; PbsCow.run L [.dispatch p]) (Sys.start ram) = .ok ([.done], t') := by
    simp only [bind, StateT.bind, ht, Except.bind]
    exact hrun
  exact ⟨t', p, g, r, x, hall, ⟨ram, _, _, hall⟩, hb'⟩

theorem Eager.step_store_of_ne (e : Eager) (hq : q ≠ p) :
    (e.step (.store p regs va b) out).2 q = e q := by
  cases hs : (e p).store va b with
  | none => cases out <;> simp [Eager.step, hs]
  | some m => cases out <;> simp [Eager.step, hs, Function.update_of_ne hq]

/-- What a process loads depends on its own view only. -/
theorem Inv.userLoad {t : Sys} {q : Slot} (h : Inv L t) (hq : (t.proc q).state ≠ .UNUSED) (a : Nat) :
    t.mem.userLoad (t.proc q).pagetable a = (t.view q).load a := by
  obtain ⟨g, hg⟩ := h.sys
  exact hg.userLoad (h.settled.used q hq).1 a

theorem StepPost.store_others {t t' : Sys} {p q : Slot} (h : StepPost L (.store p regs va b) t out t')
    (hi : Inv L t) (hq : q ≠ p) (hs : (t.proc q).state ≠ .UNUSED) (a : Nat) :
    t'.mem.userLoad (t'.proc q).pagetable a = t.mem.userLoad (t.proc q).pagetable a := by
  have hs' : (t'.proc q).state ≠ .UNUSED := fun hu => hs (h.unused trivial q hu)
  have hview := (h.sim trivial t.view (.view t)).2 q hs'
  rw [h.inv.userLoad hs', hi.userLoad hs, hview, Eager.step_store_of_ne _ hq]

/-- Copy-on-write `fork` refines a `fork` that copies: whatever forks, loads, stores, resizing,
exits, kills and scheduling a run consists of, user code sees what it would see if no page had
ever been shared, and a store is seen by no other process. -/
theorem cow_fork_refines_eager_fork {t : Sys} (h : Reachable L t) :
    (∀ ops, (∀ op ∈ ops, op.Plain) →
      Wp (run L ops) InitExiting (fun outs _ => t.view.run (ops.zip outs) = outs) t) ∧
    ∀ p regs va b, Wp (step L (.store p regs va b)) InitExiting (fun _ t' =>
      ∀ q, q ≠ p → (t.proc q).state ≠ .UNUSED → ∀ a,
        t'.mem.userLoad (t'.proc q).pagetable a = t.mem.userLoad (t.proc q).pagetable a) t := by
  have hi := h.inv
  refine ⟨fun ops hops => (hi.run ops).mono ?_, fun p regs va b => (hi.step _).mono ?_⟩
  · rintro outs t' ⟨_, hsim⟩
    exact hsim hops t.view (.view t)
  · intro out t' hpost q hq hs a
    exact hpost.store_others hi hq hs a

theorem cow_fork_refines_eager_fork_booted :
    ∃ t, (do boot imageLayout; run imageLayout []) (Sys.start fun _ _ => 0) = .ok ([], t) ∧
      (∀ ops, (∀ op ∈ ops, op.Plain) →
        Wp (run imageLayout ops) InitExiting (fun outs _ => t.view.run (ops.zip outs) = outs) t) ∧
      ∀ p regs va b, Wp (step imageLayout (.store p regs va b)) InitExiting (fun _ t' =>
        ∀ q, q ≠ p → (t.proc q).state ≠ .UNUSED → ∀ a,
          t'.mem.userLoad (t'.proc q).pagetable a = t.mem.userLoad (t.proc q).pagetable a) t := by
  obtain ⟨t, _, _, _, _, ht, hr, _⟩ := Reachable.boot imageLayout fun _ _ => 0
  exact ⟨t, ht, cow_fork_refines_eager_fork hr⟩

end PbsCow

import PbsCow.BootTable
import PbsCow.SharedText

namespace PbsCow
set_option autoImplicit true

/-- In a run in which no `kill(0)` is called while there is an unused slot, the unused slots are
clean, and a child is not marked before a `kill` names it. -/
theorem unused_slots_clean (L : Layout) (ram : Nat → Page) (ops : List Op)
    (h : ∀ u t, boot L (Sys.start ram) = .ok (u, t) → Meets (step L) Op.NoStray ops t) :
    Wp (do boot L; run L ops) InitExiting (fun _ t => t.CleanSlots ∧
      ∀ p regs np t₁, step L (.trap p regs (.syscall .fork)) t = .ok (.reply (.child np), t₁) →
        (t₁.proc np).killed = false ∧
        ∀ ops', Meets (step L) Op.NoStray ops' t₁ →
          (∀ op ∈ ops', op.Calls ∧ ¬ op.Names (t₁.proc np).pid) →
          Wp (run L ops') InitExiting (fun _ t₂ => (t₂.proc np).pid = (t₁.proc np).pid →
            (t₂.proc np).killed = false) t₁) (Sys.start ram) := by
  obtain ⟨u, t, ht, p, g, r, x, hb⟩ := (boot_spec L ram).exists_ok
  have hm := ((boot_table L ram).of_eq_ok ht).marked
  refine .bind_ok ht ?_
  rw [run_eq]
  have hrun := (h u t ht).run (I := fun t => Inv L t ∧ Marked t) ⟨hb.toInv, hm⟩
    fun op _ t hi hc => (hi.1.marked_step hi.2 hc).mono fun _ _ h' => h'.1
  refine hrun.mono ?_
  rintro _ t ⟨hi, hm⟩
  refine ⟨hi.cleanSlots hm, fun p regs np t₁ hfork => ?_⟩
  have htaken : Taken np t t₁ := (fork_child (L := L)).of_eq_ok hfork np rfl
  have hnext := hm.next
  have hpid := htaken.pid
  have hkilled : (t₁.proc np).killed = false := htaken.killed.trans (hm.killed np htaken.unused)
  have hstray : (Op.trap p regs (.syscall .fork)).NoStray t := fun _ _ he => by cases he
  obtain ⟨⟨hi₁, hm₁⟩, _⟩ := (hi.marked_step hm hstray).of_eq_ok hfork
  have hstart : Unmarked L np (t₁.proc np).pid t₁ :=
    ⟨hi₁, hm₁, by omega, by have := htaken.next; omega, fun _ => hkilled⟩
  refine ⟨hkilled, fun ops' hmeets hops => ?_⟩
  rw [run_eq]
  refine (hmeets.run hstart fun op hop t h hc => ?_).mono fun _ _ h => h.killed
  exact h.step (hops op hop).1 (hops op hop).2 hc

theorem unused_slots_clean_kill :
    ∃ p, Wp (do boot imageLayout; run imageLayout [.dispatch p, .trap p ⟨0, 0⟩ (.syscall .fork),
        .trap p ⟨0, 0⟩ (.syscall (.kill 2))]) InitExiting (fun _ t => t.CleanSlots)
      (Sys.start fun _ _ => 0) := by
  refine ⟨⟨0, by decide⟩, ?_⟩
  generalize hops : [Op.dispatch _, _, _] = ops
  generalize imageLayout = L
  generalize (fun _ _ => 0 : Nat → Page) = ram
  refine (unused_slots_clean L ram ops fun _ t _ => ?_).mono fun _ _ h => h.1
  refine .of_forall (fun op hop t p regs he => ?_) t
  subst he hops
  simp at hop

/-- A `kill` finds the first slot with the pid that it is given. -/
theorem killScan_hits {t : Sys} {l : List Slot} (hl : i ∈ l) (hi : (t.proc i).pid = pid) :
    Wp (killScan pid l) NoError (fun ret t' => ret = 0 ∧ ∃ j, (t.proc j).pid = pid ∧
      t' = t.setProc j fun q => { q with
        killed := true, state := if q.state = .SLEEPING then .RUNNABLE else q.state }) t := by
  induction l with
  | nil => cases hl
  | cons p l ih =>
    rw [killScan, wp_bind, wp_get]
    refine .ite (fun hp => wp_bind.2 (wp_setProc.2 (wp_pure.2 ⟨rfl, p, hp, rfl⟩))) fun hp => ?_
    rcases List.mem_cons.1 hl with rfl | hl
    · exact (hp hi).elim
    · exact ih hl

/-- The trap in which the first process calls `kill(0)`. -/
theorem Booted.kill_zero {t : Sys} (h : Booted L t p .RUNNING g r x) (hi : (t.proc i).pid = 0)
    (hp : (t.proc p).pid = 1) (regs : Regs) :
    Wp (usertrap L p regs (.syscall (.kill 0))) NoError (fun ret t' => ret = .value 0 ∧
      ∃ j, (t'.proc j).state = .UNUSED ∧ (t'.proc j).killed = true) t := by
  refine h.toInv.usertrap_syscall h.state h.killed (fun t₁ ht₁ => ?_) regs
  have hscan : Wp (PbsCow.kill 0) NoError _ t₁ := (Inv.killScan _).and
    (killScan_hits (t := t₁) (i := i) (List.mem_finRange i) (by rw [ht₁.proc, hi]))
  rw [syscall]
  refine .bind hscan ?_
  rintro _ t₂ ⟨⟨hq, _⟩, rfl, j, hj, rfl⟩
  rw [ht₁.proc] at hj
  have hjp : p ≠ j := by
    rintro rfl
    rw [hp] at hj
    cases hj
  have hproc := t₁.setProc_of_ne (f := fun q : Proc => { q with
    killed := true, state := if q.state = .SLEEPING then .RUNNABLE else q.state }) hjp
  refine wp_pure.2 ⟨by simp, hq.inv (ht₁.toInv h.toInv), by rw [hproc, ht₁.proc, h.state],
    by rw [hproc, ht₁.proc, h.killed], fun t' ht' => ⟨rfl, j, ?_, ?_⟩⟩
  · rw [ht'.proc, t₁.setProc_self, ht₁.proc, h.alone j hjp.symm]
    rfl
  · rw [ht'.proc, t₁.setProc_self]

theorem boot_kill_zero (L : Layout) (ram : Nat → Page) :
    ∃ t p i, (do boot L; run L [.dispatch p, .trap p ⟨0, 0⟩ (.syscall (.kill 0))]) (Sys.start ram) =
          .ok ([.done, .reply (.value 0)], t) ∧
      (t.proc i).state = .UNUSED ∧ (t.proc i).killed = true := by
  obtain ⟨_, t, ht, p, g, r, x, hb⟩ := (boot_spec L ram).exists_ok
  have htab := (boot_table L ram).of_eq_ok ht
  obtain ⟨t₁, hrun₁, hb₁⟩ := hb.dispatch
  have ht₁ : t₁ = t.setProc p fun q => { q with state := .RUNNING } := by
    rw [run_dispatch hb.state] at hrun₁
    injection hrun₁ with h
    exact (congrArg Prod.snd h).symm
  obtain ⟨i, hi, _⟩ := hb.exists_unused
  have hp₁ : (t₁.proc p).pid = 1 := by
    rw [ht₁, t.setProc_self]
    exact htab.pid p (by rw [hb.state]; simp)
  have hi₁ : (t₁.proc i).pid = 0 := by
    rw [ht₁, t.setProc_of_ne hi]
    exact htab.marked.pid i (hb.alone i hi)
  obtain ⟨_, t₂, hrun₂, rfl, j, hj, hk⟩ := run_trap hb₁.state (hb₁.kill_zero hi₁ hp₁ ⟨0, 0⟩)
  refine ⟨t₂, p, j, ?_, hj, hk⟩
  simp only [bind, StateT.bind, ht, Except.bind]
  exact run_append hrun₁ hrun₂

/-- The first process calls `kill(0)`, which marks an unused slot. -/
theorem kill_zero_marks_unused :
    ∃ t p i, (do boot imageLayout; run imageLayout [.dispatch p,
        .trap p ⟨0, 0⟩ (.syscall (.kill 0))]) (Sys.start fun _ _ => 0) =
          .ok ([.done, .reply (.value 0)], t) ∧
      (t.proc i).state = .UNUSED ∧ (t.proc i).killed = true :=
  boot_kill_zero imageLayout _

end PbsCow

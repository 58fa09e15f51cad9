import PbsCow.Framed
import PbsCow.Refinement
import PbsCow.Lib.Runs

namespace PbsCow
set_option autoImplicit true

/-- The slots whose `killed` flag a trap of `p` may set. -/
def Cause.Marks (t : Sys) (p : Slot) : Cause → Slot → Prop
  | .syscall (.kill pid), i => (t.proc i).pid = pid
  | .storeFault _, i => i = p
  | .unexpected, i => i = p
  | _, _ => False

theorem killScan_tidy {t : Sys} (h : ∀ i, (t.proc i).state = .UNUSED → (t.proc i).pid ≠ pid)
    (l : List Slot) :
    Wp (killScan pid l) AnyError (fun _ t' => Tidy (fun i => (t.proc i).pid = pid) t t') t := by
  induction l with
  | nil => exact wp_pure.2 (.refl _ t)
  | cons p l ih =>
    rw [killScan]
    simp only [wp_bind, wp_get]
    refine .ite (fun hp => wp_bind.2 (wp_setProc.2 (wp_pure.2 ?_))) fun _ => ih
    have hcase (i : Slot) (hi : i ≠ p) := t.setProc_of_ne (f := fun q : Proc => { q with
      killed := true, state := if q.state = .SLEEPING then .RUNNABLE else q.state }) hi
    refine ⟨le_refl _, fun i hi => ?_, fun i => .inl ?_, fun i hK _ _ => ?_⟩
    · by_cases hip : i = p
      · subst hip
        rw [t.setProc_self] at hi
        have hs : (t.proc i).state = .UNUSED := by
          by_cases hs : (t.proc i).state = .SLEEPING
          · simp [hs] at hi
          · simpa [hs] using hi
        exact (h i hs hp).elim
      · rw [hcase i hip] at hi ⊢
        exact .inr ⟨hi, rfl, rfl⟩
    · by_cases hip : i = p
      · subst hip
        rw [t.setProc_self]
      · rw [hcase i hip]
    · have hip : i ≠ p := by
        rintro rfl
        exact hK hp
      rw [hcase i hip]
      exact ⟨rfl, rfl⟩

theorem Tidy.setkilled {t : Sys} (hK : K p) (hp : (t.proc p).state ≠ .UNUSED) :
    Tidy K t (t.setProc p fun q => { q with killed := true }) := by
  refine ⟨le_refl _, fun i hi => ?_, fun i => .inl ?_, fun i hi _ _ => ?_⟩
  · by_cases hip : i = p
    · subst hip
      rw [t.setProc_self] at hi
      exact (hp hi).elim
    · rw [t.setProc_of_ne hip] at hi ⊢
      exact .inr ⟨hi, rfl, rfl⟩
  · by_cases hip : i = p
    · subst hip
      rw [t.setProc_self]
    · rw [t.setProc_of_ne hip]
  · have hip : i ≠ p := by
      rintro rfl
      exact hi hK
    rw [t.setProc_of_ne hip]
    exact ⟨rfl, rfl⟩

/-- The slots whose `killed` flag an operation may set. -/
def Op.Marks (t : Sys) : Op → Slot → Prop
  | .trap p _ cause, i => cause.Marks t p i
  | .load p _ _, i => i = p
  | .store p _ _ _, i => i = p
  | .dispatch _, _ => False

/-- The operation does not call `kill(0)` while there is an unused slot. -/
def Op.NoStray (t : Sys) (op : Op) : Prop :=
  ∀ p regs, op = .trap p regs (.syscall (.kill 0)) → (t.proc p).state = .RUNNING →
    (t.proc p).killed = false → ∀ i, (t.proc i).state ≠ .UNUSED

/-- One operation, in a state in which the unused slots have pid 0. -/
theorem Tidy.step {t : Sys} (hc : ∀ i, (t.proc i).state = .UNUSED → (t.proc i).pid = 0)
    (ho : op.NoStray t) : Wp (step L op) AnyError (fun _ t' => Tidy (op.Marks t) t t') t := by
  refine Framed.step (fun p hf t' hp => Tidy.setkilled ?_ hp) ?_
  · match op, hf with
    | .load _ _ _, hf => exact hf.symm
    | .store _ _ _ _, hf => exact hf.symm
    | .trap _ _ (.storeFault _), ⟨hf, _⟩ => exact hf.symm
    | .trap _ _ .unexpected, ⟨hf, _⟩ => exact hf.symm
  · rintro p regs pid rfl hp hk t₁ ht₁
    have hpid (i : Slot) (hi : (t₁.proc i).state = .UNUSED) : (t₁.proc i).pid ≠ pid := by
      intro he
      rw [ht₁] at hi he
      exact ho p regs (by rw [← he, hc i hi]) hp hk i hi
    have hscan := killScan_tidy hpid (List.finRange NPROC)
    rwa [ht₁] at hscan

/-- A slot as `freeproc` leaves it. -/
structure Proc.Clean (q : Proc) : Prop where
  pid : q.pid = 0
  killed : q.killed = false
  parent : q.parent = none
  pagetable : q.pagetable = 0
  trapframe : q.trapframe = 0
  sz : q.sz = 0

def Sys.CleanSlots (t : Sys) : Prop := ∀ i, (t.proc i).state = .UNUSED → (t.proc i).Clean

/-- The invariant behind it, beside the one for memory. -/
structure Marked (t : Sys) : Prop where
  next : 0 < t.nextpid
  pid : ∀ i, (t.proc i).state = .UNUSED → (t.proc i).pid = 0
  killed : ∀ i, (t.proc i).state = .UNUSED → (t.proc i).killed = false

theorem Marked.tidy {t t' : Sys} (h : Marked t) (ht : Tidy K t t') : Marked t' := by
  refine ⟨lt_of_lt_of_le h.next ht.next, fun i hi => ?_, fun i hi => ?_⟩
  · rcases ht.unused i hi with ⟨hp, _⟩ | ⟨hu, hp, _⟩
    · exact hp
    · exact hp.trans (h.pid i hu)
  · rcases ht.unused i hi with ⟨_, hk⟩ | ⟨hu, _, hk⟩
    · exact hk
    · exact hk.trans (h.killed i hu)

theorem Inv.cleanSlots {t : Sys} (h : Inv L t) (hm : Marked t) : t.CleanSlots := by
  intro i hi
  obtain ⟨_, hpt, htf, hsz, hpar⟩ := h.settled.unused i hi
  exact ⟨hm.pid i hi, hm.killed i hi, hpar, hpt, htf, hsz⟩

theorem run_eq (L : Layout) (ops : List Op) : run L ops = runWith (step L) ops := by
  induction ops with
  | nil => rfl
  | cons op ops ih => rw [run, runWith, ih]

theorem Inv.marked_step {t : Sys} (h : Inv L t) (hm : Marked t) (ho : op.NoStray t) :
    Wp (PbsCow.step L op) InitExiting (fun _ t' => (Inv L t' ∧ Marked t') ∧ Tidy (op.Marks t) t t') t := by
  refine ((h.step op).and (Tidy.step hm.pid ho)).mono ?_
  rintro _ t' ⟨hs, ht⟩
  exact ⟨⟨hs.inv, hm.tidy ht⟩, ht⟩

/-- A trap that returns a child has taken a slot for it. -/
theorem fork_child {t : Sys} :
    Wp (step L (.trap p regs (.syscall .fork))) AnyError
      (fun out t' => ∀ np, out = .reply (.child np) → Taken np t t') t := by
  rw [step, whenState, wp_bind, wp_get]
  refine .ite (fun _ => ?_) fun _ => wp_pure.2 (by simp)
  rw [wp_bind, usertrap.eq_def]
  refine .bind uservec_table ?_
  rintro _ t₁ ⟨hp₁, hn₁⟩
  have hexit (t₂ : Sys) : Wp (do exit p (-1); return .stopped) AnyError (fun r t' =>
      Wp (pure (Out.reply r) : Ker Out) AnyError
        (fun out t' => ∀ np, out = .reply (.child np) → Taken np t t') t') t₂ :=
    .bind (P := fun _ _ => True) (.of_forall fun _ _ => trivial) fun _ _ _ => wp_pure.2 (by simp)
  dsimp only
  rw [exitIfKilled, wp_bind, wp_get]
  refine .ite (fun _ => hexit t₁) fun _ => ?_
  rw [wp_bind, wp_get]
  refine .bind Tidy.onMem ?_
  rintro _ t₂ ⟨hp₂, hn₂⟩
  have hcall : Wp (syscall L p .fork) AnyError
      (fun r t' => ∀ np, r = .child np → Taken np t₂ t') t₂ := by
    refine .bind (fork_table (K := fun _ => False)) ?_
    rintro (_ | np) t₃ h₃
    · exact wp_pure.2 (by simp)
    · exact wp_pure.2 fun _ h => by cases h; exact h₃
  refine .bind hcall fun r t₃ h₃ => .ite (fun _ => wp_pure.2 (by simp)) fun _ => ?_
  have hset : Wp (setReturn p r) AnyError (fun _ t' => t'.proc = t₃.proc ∧ t'.nextpid = t₃.nextpid) t₃ := by
    rw [setReturn, wp_bind, wp_get]
    cases r.ret t₃ with
    | none => exact wp_pure.2 ⟨rfl, rfl⟩
    | some n => exact Tidy.onMem
  refine .bind hset ?_
  rintro _ t₄ ⟨hp₄, hn₄⟩
  rw [exitIfKilled, wp_bind, wp_get]
  refine .ite (fun _ => hexit t₄) fun _ => wp_pure.2 (wp_pure.2 ?_)
  rintro np hnp
  have h := (h₃ np (by injection hnp)).same hp₄ hn₄
  have hp : t₂.proc = t.proc := hp₂.trans hp₁
  have hn : t₂.nextpid = t.nextpid := hn₂.trans hn₁
  exact ⟨hn ▸ h.next, hp ▸ h.other, hp ▸ h.unused, h.state, hn ▸ h.pid, hp ▸ h.killed⟩

/-- Switching, and the system calls. -/
def Op.Calls : Op → Prop
  | .dispatch _ => True
  | .trap _ _ (.syscall _) => True
  | .trap _ _ .timer => True
  | _ => False

/-- The operation is a `kill` that names this pid. -/
def Op.Names (op : Op) (pid : Int) : Prop := ∃ p regs, op = .trap p regs (.syscall (.kill pid))

/-- The process with pid `k` in slot `np` has not been marked. -/
structure Unmarked (L : Layout) (np : Slot) (k : Int) (t : Sys) : Prop where
  inv : Inv L t
  marked : Marked t
  pos : k ≠ 0
  lt : k < t.nextpid
  killed : (t.proc np).pid = k → (t.proc np).killed = false

theorem Unmarked.step {t : Sys} (h : Unmarked L np k t) (hop : op.Calls) (hn : ¬ op.Names k)
    (ho : op.NoStray t) : Wp (step L op) InitExiting (fun _ t' => Unmarked L np k t') t := by
  refine (h.inv.marked_step h.marked ho).mono ?_
  rintro _ t' ⟨⟨hi, hm⟩, ht⟩
  refine ⟨hi, hm, h.pos, lt_of_lt_of_le h.lt ht.next, fun hpid => ?_⟩
  have hlt := h.lt
  have hpos := h.pos
  have hsame : (t.proc np).pid = k := by
    rcases ht.pid np with hp | h0 | ⟨hge, _⟩
    · exact hp.symm.trans hpid
    · exact (hpos (hpid.symm.trans h0)).elim
    · omega
  have hmark : ¬ op.Marks t np := by
    intro hmark
    match op, hop with
    | .trap p regs (.syscall (.kill pid)), _ =>
      have he : (t.proc np).pid = pid := hmark
      exact hn ⟨p, regs, by rw [← hsame, he]⟩
    | .dispatch _, _ => exact hmark
    | .trap _ _ .timer, _ => exact hmark
    | .trap _ _ (.syscall .fork), _ => exact hmark
    | .trap _ _ (.syscall (.exit _)), _ => exact hmark
    | .trap _ _ (.syscall (.wait _)), _ => exact hmark
    | .trap _ _ (.syscall (.sbrk _)), _ => exact hmark
    | .trap _ _ (.syscall (.exec _ _ _)), _ => exact hmark
    | .trap _ _ (.syscall (.pipe _ _ _)), _ => exact hmark
    | .trap _ _ (.syscall (.close _ _)), _ => exact hmark
    | .trap _ _ (.syscall (.read _ _)), _ => exact hmark
    | .trap _ _ (.syscall (.sleep _)), _ => exact hmark
    | .trap _ _ (.syscall (.waitx _ _ _ _ _)), _ => exact hmark
    | .trap _ _ (.syscall (.setPriority _ _)), _ => exact hmark
  rw [(ht.old np hmark (by rw [hpid]; exact hpos) (by rw [hpid]; exact hlt)).2, h.killed hsame]

end PbsCow

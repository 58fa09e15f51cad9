import PbsCow.Step

namespace PbsCow
set_option autoImplicit true

/-- What happens to pids and `killed` flags: a slot that is unused was left as it is or was cleaned,
and outside `K` a slot whose pid is an old one is still marked as it was. -/
structure Tidy (K : Slot → Prop) (t t' : Sys) : Prop where
  next : t.nextpid ≤ t'.nextpid
  unused : ∀ i, (t'.proc i).state = .UNUSED →
    (t'.proc i).pid = 0 ∧ (t'.proc i).killed = false ∨
    (t.proc i).state = .UNUSED ∧ (t'.proc i).pid = (t.proc i).pid ∧
      (t'.proc i).killed = (t.proc i).killed
  pid : ∀ i, (t'.proc i).pid = (t.proc i).pid ∨ (t'.proc i).pid = 0 ∨
    t.nextpid ≤ (t'.proc i).pid ∧ (t'.proc i).pid < t'.nextpid
  old : ∀ i, ¬ K i → (t'.proc i).pid ≠ 0 → (t'.proc i).pid < t.nextpid →
    (t'.proc i).pid = (t.proc i).pid ∧ (t'.proc i).killed = (t.proc i).killed

theorem Tidy.of_same {t t' : Sys} (hn : t'.nextpid = t.nextpid) (hp : t'.proc = t.proc) :
    Tidy K t t' := by
  refine ⟨hn.ge, fun i hi => .inr ?_, fun i => .inl (by rw [hp]), fun i _ _ _ => by simp [hp]⟩
  rw [hp] at hi ⊢
  exact ⟨hi, rfl, rfl⟩

theorem Tidy.refl (K : Slot → Prop) (t : Sys) : Tidy K t t := .of_same rfl rfl

theorem Tidy.trans {t t' t'' : Sys} (h : Tidy K t t') (h' : Tidy K t' t'') : Tidy K t t'' where
  next := h.next.trans h'.next
  unused i hi := by
    rcases h'.unused i hi with hc | ⟨hu, hp, hk⟩
    · exact .inl hc
    · rcases h.unused i hu with hc | ⟨hu', hp', hk'⟩
      · exact .inl ⟨hp.trans hc.1, hk.trans hc.2⟩
      · exact .inr ⟨hu', hp.trans hp', hk.trans hk'⟩
  pid i := by
    have hn := h.next
    have hn' := h'.next
    rcases h'.pid i with hp | h0 | hfresh
    · rw [hp]
      rcases h.pid i with hp' | h0' | hfresh'
      · exact .inl hp'
      · exact .inr (.inl h0')
      · exact .inr (.inr (by omega))
    · exact .inr (.inl h0)
    · exact .inr (.inr (by omega))
  old i hK h0 hlt := by
    obtain ⟨hp, hk⟩ := h'.old i hK h0 (lt_of_lt_of_le hlt h.next)
    rw [hp] at h0 hlt
    obtain ⟨hp', hk'⟩ := h.old i hK h0 hlt
    exact ⟨hp.trans hp', hk.trans hk'⟩

theorem Tidy.bind {t : Sys} {x : Ker α} {f : α → Ker β}
    (hx : Wp x AnyError (fun _ t' => Tidy K t t') t)
    (hf : ∀ a t', Wp (f a) AnyError (fun _ t'' => Tidy K t' t'') t') :
    Wp (x >>= f) AnyError (fun _ t' => Tidy K t t') t :=
  .bind hx fun a t' h => (hf a t').mono fun _ _ h' => h.trans h'

/-- Code that only touches memory leaves the table alone. -/
theorem Tidy.onMem {x : Kern α} {t : Sys} :
    Wp (PbsCow.onMem x) AnyError (fun _ t' => t'.proc = t.proc ∧ t'.nextpid = t.nextpid) t :=
  wp_onMem.2 (.of_forall fun _ _ => ⟨rfl, rfl⟩)

theorem Tidy.mem {x : Kern α} {t : Sys} :
    Wp (PbsCow.onMem x) AnyError (fun _ t' => Tidy K t t') t :=
  Tidy.onMem.mono fun _ _ h => .of_same h.2 h.1

/-- A slot keeps its pid and its `killed` flag, and is not given back. -/
structure Proc.SameMarks (q q' : Proc) : Prop where
  pid : q'.pid = q.pid
  killed : q'.killed = q.killed
  state : q'.state = .UNUSED → q.state = .UNUSED

theorem Tidy.of_sameMarks {t t' : Sys} (hn : t'.nextpid = t.nextpid)
    (h : ∀ i, (t.proc i).SameMarks (t'.proc i)) : Tidy K t t' :=
  ⟨hn.ge, fun i hi => .inr ⟨(h i).state hi, (h i).pid, (h i).killed⟩, fun i => .inl (h i).pid,
    fun i _ _ _ => ⟨(h i).pid, (h i).killed⟩⟩

theorem Tidy.setProc {t : Sys} {p : Slot} {f : Proc → Proc}
    (hf : (t.proc p).SameMarks (f (t.proc p))) : Tidy K t (t.setProc p f) := by
  refine .of_sameMarks rfl fun i => ?_
  by_cases hi : i = p
  · subst hi
    rwa [t.setProc_self]
  · rw [t.setProc_of_ne hi]
    exact ⟨rfl, rfl, fun h => h⟩

/-- `freeproc` cleans the slot. -/
theorem freeproc_table {t : Sys} :
    Wp (freeproc L p) AnyError (fun _ t' => t'.nextpid = t.nextpid ∧
      (∀ j, j ≠ p → t'.proc j = t.proc j) ∧ (t'.proc p).state = .UNUSED ∧ (t'.proc p).pid = 0 ∧
      (t'.proc p).killed = false) t := by
  rw [freeproc, wp_bind, wp_get]
  have hlast (t₂ : Sys) (hn : t₂.nextpid = t.nextpid) (ho : ∀ j, j ≠ p → t₂.proc j = t.proc j) :
      Wp (setProc p fun q => { q with
          pagetable := 0, sz := 0, pid := 0, parent := none, chan := .none, killed := false,
          xstate := 0, state := .UNUSED }) AnyError (fun _ t' => t'.nextpid = t.nextpid ∧
        (∀ j, j ≠ p → t'.proc j = t.proc j) ∧ (t'.proc p).state = .UNUSED ∧ (t'.proc p).pid = 0 ∧
        (t'.proc p).killed = false) t₂ := by
    rw [wp_setProc, Sys.setProc_self]
    exact ⟨hn, fun j hj => (Sys.setProc_of_ne _ hj).trans (ho j hj), rfl, rfl, rfl⟩
  suffices hrest : ∀ t₁ : Sys, t₁.proc = t.proc → t₁.nextpid = t.nextpid → Wp _ AnyError _ t₁ from
    .ite (fun _ => .bind Tidy.onMem fun _ t₁ h => hrest t₁ h.1 h.2) fun _ => hrest t rfl rfl
  intro t₁ hp₁ hn₁
  rw [wp_bind, wp_setProc]
  have ho (j : Slot) (hj : j ≠ p) :
      (t₁.setProc p fun q => { q with trapframe := 0 }).proc j = t.proc j := by
    rw [Sys.setProc_of_ne _ hj, hp₁]
  refine .ite (fun _ => .bind Tidy.onMem fun _ t₂ h => ?_) fun _ => ?_
  · exact hlast t₂ (h.2.trans hn₁) fun j hj => by rw [h.1, ho j hj]
  · exact hlast _ hn₁ ho

/-- Only slot `p` has changed, and it has been cleaned. -/
theorem Tidy.of_cleaned {t t' : Sys} (hn : t.nextpid ≤ t'.nextpid)
    (ho : ∀ j, j ≠ p → t'.proc j = t.proc j) (hp : (t'.proc p).pid = 0)
    (hk : (t'.proc p).killed = false) : Tidy K t t' := by
  refine ⟨hn, fun i hi => ?_, fun i => ?_, fun i _ h0 _ => ?_⟩ <;> by_cases hip : i = p
  · exact .inl (hip ▸ ⟨hp, hk⟩)
  · rw [ho i hip] at hi ⊢
    exact .inr ⟨hi, rfl, rfl⟩
  · exact .inr (.inl (hip ▸ hp))
  · exact .inl (by rw [ho i hip])
  · exact (h0 (hip ▸ hp)).elim
  · rw [ho i hip]
    exact ⟨rfl, rfl⟩

theorem Tidy.freeproc {t : Sys} :
    Wp (PbsCow.freeproc L p) AnyError (fun _ t' => Tidy K t t') t :=
  freeproc_table.mono fun _ _ ⟨hn, ho, _, hp, hk⟩ => .of_cleaned hn.ge ho hp hk

/-- `allocproc` has taken slot `p`; it does not touch its `killed` flag. -/
structure Taken (p : Slot) (t t' : Sys) : Prop where
  next : t'.nextpid = t.nextpid + 1
  other : ∀ j, j ≠ p → t'.proc j = t.proc j
  unused : (t.proc p).state = .UNUSED
  state : (t'.proc p).state ≠ .UNUSED
  pid : (t'.proc p).pid = t.nextpid
  killed : (t'.proc p).killed = (t.proc p).killed

theorem Taken.tidy {t t' : Sys} (h : Taken p t t') : Tidy K t t' := by
  have hn := h.next
  have hp := h.pid
  refine ⟨by omega, fun i hi => ?_, fun i => ?_, fun i _ h0 hlt => ?_⟩ <;> by_cases hip : i = p
  · exact (h.state (hip ▸ hi)).elim
  · rw [h.other i hip] at hi ⊢
    exact .inr ⟨hi, rfl, rfl⟩
  · rw [hip]
    exact .inr (.inr (by omega))
  · exact .inl (by rw [h.other i hip])
  · rw [hip] at hlt
    omega
  · rw [h.other i hip]
    exact ⟨rfl, rfl⟩

theorem Taken.same {t t' t'' : Sys} (h : Taken p t t') (hp : t''.proc = t'.proc)
    (hn : t''.nextpid = t'.nextpid) : Taken p t t'' :=
  ⟨hn.trans h.next, by rw [hp]; exact h.other, h.unused, by rw [hp]; exact h.state,
    by rw [hp]; exact h.pid, by rw [hp]; exact h.killed⟩

theorem Taken.setProc {t t' : Sys} {f : Proc → Proc} (h : Taken p t t')
    (hs : (f (t'.proc p)).state ≠ .UNUSED) (hp : (f (t'.proc p)).pid = (t'.proc p).pid)
    (hk : (f (t'.proc p)).killed = (t'.proc p).killed) : Taken p t (t'.setProc p f) := by
  refine ⟨h.next, fun j hj => ?_, h.unused, ?_, ?_, ?_⟩
  · rw [Sys.setProc_of_ne _ hj]
    exact h.other j hj
  · rwa [Sys.setProc_self]
  · rw [Sys.setProc_self, hp]
    exact h.pid
  · rw [Sys.setProc_self, hk]
    exact h.killed

/-- The slots are as they were, or have been cleaned. -/
structure Cleaned (t t' : Sys) : Prop where
  next : t.nextpid ≤ t'.nextpid
  slot : ∀ i, t'.proc i = t.proc i ∨ (t'.proc i).pid = 0 ∧ (t'.proc i).killed = false

theorem Cleaned.tidy {t t' : Sys} (h : Cleaned t t') : Tidy K t t' := by
  refine ⟨h.next, fun i hi => ?_, fun i => ?_, fun i _ h0 _ => ?_⟩
  · rcases h.slot i with he | hc
    · rw [he] at hi ⊢
      exact .inr ⟨hi, rfl, rfl⟩
    · exact .inl hc
  · rcases h.slot i with he | hc
    · exact .inl (by rw [he])
    · exact .inr (.inl hc.1)
  · rcases h.slot i with he | hc
    · rw [he]
      exact ⟨rfl, rfl⟩
    · exact (h0 hc.1).elim

theorem Taken.freeproc {t t' : Sys} (h : Taken p t t') :
    Wp (PbsCow.freeproc L p) AnyError (fun _ t'' => Cleaned t t'') t' := by
  refine freeproc_table.mono ?_
  rintro _ t'' ⟨hn, ho, _, hp, hk⟩
  have hn' := h.next
  refine ⟨by omega, fun i => ?_⟩
  by_cases hi : i = p
  · exact .inr (hi ▸ ⟨hp, hk⟩)
  · exact .inl ((ho i hi).trans (h.other i hi))

/-- What `allocproc` gives a new process for the scheduler. -/
structure Proc.Newborn (q : Proc) : Prop where
  my_wtime : q.my_wtime = 0
  my_rtime : q.my_rtime = 0
  my_stime : q.my_stime = 0
  static_pri : q.static_pri = 50
  rbi : q.rbi = 25

def AllocClean (t : Sys) (r : Option Slot) (t' : Sys) : Prop :=
  match r with
  | none => Cleaned t t'
  | some p => Taken p t t' ∧ (t'.proc p).state = .USED ∧ (t'.proc p).Newborn

def AllocTable (K : Slot → Prop) (t : Sys) (r : Option Slot) (t' : Sys) : Prop :=
  match r with
  | none => Tidy K t t'
  | some p => Taken p t t' ∧ (t'.proc p).state = .USED ∧ (t'.proc p).Newborn

theorem Taken.alloc {t : Sys} (hp : (t.proc p).state = .UNUSED) :
    Taken p t (({ t with nextpid := t.nextpid + 1 } : Sys).setProc p fun q =>
      { q with pid := t.nextpid, state := .USED }) := by
  refine ⟨rfl, fun j hj => Sys.setProc_of_ne _ hj, hp, ?_, ?_, ?_⟩ <;> rw [Sys.setProc_self]
  simp

theorem allocproc_clean {t : Sys} : Wp (allocproc L) AnyError (AllocClean t) t := by
  rw [allocproc, wp_bind, wp_get]
  cases hf : (List.finRange NPROC).find? fun p => (t.proc p).state = .UNUSED with
  | none => exact wp_pure.2 ⟨le_refl _, fun _ => .inl rfl⟩
  | some p =>
    simp only [allocpid, wp_bind, wp_get, wp_modify, wp_pure, wp_setProc]
    have h₁ := Taken.alloc (t := t) (p := p) (by simpa using List.find?_some hf)
    have hs₁ : ((({ t with nextpid := t.nextpid + 1 } : Sys).setProc p fun q =>
        { q with pid := t.nextpid, state := .USED }).proc p).state = .USED := by rw [Sys.setProc_self]
    generalize Sys.setProc _ p _ = t₁ at h₁ hs₁ ⊢
    refine Tidy.onMem.mono ?_
    rintro trapframe t₂ ⟨hp₂, hn₂⟩
    have hu₂ : (t₂.proc p).state ≠ .UNUSED := by
      rw [hp₂, hs₁]
      simp
    have h₃ := (h₁.same hp₂ hn₂).setProc (f := fun q => { q with trapframe := trapframe }) hu₂ rfl rfl
    have hs₃ : ((t₂.setProc p fun q => { q with trapframe := trapframe }).proc p).state = .USED := by
      rw [Sys.setProc_self, ← hs₁, ← hp₂]
    generalize Sys.setProc _ p _ = t₃ at h₃ hs₃ ⊢
    refine .ite (fun _ => wp_bind.2 (h₃.freeproc.mono fun _ _ h => wp_pure.2 h)) fun _ => ?_
    rw [wp_bind]
    refine Tidy.onMem.mono ?_
    rintro pagetable t₄ ⟨hp₄, hn₄⟩
    have hu₄ : (t₄.proc p).state ≠ .UNUSED := by
      rw [hp₄, hs₃]
      simp
    rw [wp_bind, wp_setProc]
    have h₅ := (h₃.same hp₄ hn₄).setProc (f := fun q => { q with pagetable := pagetable }) hu₄ rfl rfl
    have hs₅ : ((t₄.setProc p fun q => { q with pagetable := pagetable }).proc p).state = .USED := by
      rw [Sys.setProc_self, ← hs₃, ← hp₄]
    generalize Sys.setProc _ p _ = t₅ at h₅ hs₅ ⊢
    refine .ite (fun _ => wp_bind.2 (h₅.freeproc.mono fun _ _ h => wp_pure.2 h)) fun _ => ?_
    simp only [wp_bind, wp_get, wp_setProc, wp_pure]
    refine ⟨h₅.setProc h₅.state rfl rfl, by rw [Sys.setProc_self, ← hs₅], ?_⟩
    rw [Sys.setProc_self]
    exact ⟨rfl, rfl, rfl, rfl, rfl⟩

theorem allocproc_table {t : Sys} : Wp (allocproc L) AnyError (AllocTable K t) t := by
  refine allocproc_clean.mono ?_
  rintro (_ | p) t' h
  · exact Cleaned.tidy h
  · exact h

/-- A new process has a new pid and the `killed` flag that its slot had. -/
def ForkTable (K : Slot → Prop) (t : Sys) (r : Option Slot) (t' : Sys) : Prop :=
  match r with
  | none => Tidy K t t'
  | some p => Taken p t t'

/-- A new process is one for the scheduler too. -/
def ForkClean (t : Sys) (r : Option Slot) (t' : Sys) : Prop :=
  match r with
  | none => Cleaned t t'
  | some p => Taken p t t' ∧ (t'.proc p).Newborn

theorem fork_clean {t : Sys} : Wp (fork L p) AnyError (ForkClean t) t := by
  rw [fork]
  refine .bind allocproc_clean ?_
  rintro (_ | np) t₁ h₁
  · exact wp_pure.2 h₁
  obtain ⟨h₁, _, hnew⟩ := h₁
  rw [wp_bind, wp_get, wp_bind, wp_get]
  refine .bind Tidy.onMem ?_
  rintro ret t₂ ⟨hp₂, hn₂⟩
  have h₂ := h₁.same hp₂ hn₂
  refine .ite (fun _ => wp_bind.2 (h₂.freeproc.mono fun _ _ h => wp_pure.2 h)) fun _ => ?_
  rw [wp_bind, wp_setProc]
  have h₃ := h₂.setProc (f := fun q => { q with sz := (t₁.proc p).sz, parent := some p }) h₂.state rfl rfl
  refine .bind Tidy.onMem ?_
  rintro _ t₄ ⟨hp₄, hn₄⟩
  refine .bind Tidy.onMem ?_
  rintro _ t₅ ⟨hp₅, hn₅⟩
  rw [wp_bind, wp_setProc]
  refine wp_pure.2 ⟨((h₃.same hp₄ hn₄).same hp₅ hn₅).setProc (by simp) rfl rfl, ?_⟩
  rw [Sys.setProc_self, hp₅, hp₄, Sys.setProc_self, hp₂]
  exact ⟨hnew.my_wtime, hnew.my_rtime, hnew.my_stime, hnew.static_pri, hnew.rbi⟩

theorem fork_table {t : Sys} : Wp (fork L p) AnyError (ForkTable K t) t := by
  refine fork_clean.mono ?_
  rintro (_ | np) t' h
  · exact Cleaned.tidy h
  · exact h.1

theorem ForkTable.tidy {t t' : Sys} (h : ForkTable K t r t') : Tidy K t t' := by
  cases r with
  | none => exact h
  | some p => exact Taken.tidy h

end PbsCow

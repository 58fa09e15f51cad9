import PbsCow.PageFault

namespace PbsCow
set_option autoImplicit true

/-- The system calls in which the kernel does not write to user memory. -/
def Syscall.Plain : Syscall → Prop
  | .fork | .exit _ | .sbrk _ | .kill _ | .sleep _ => True
  | .wait addr => addr = 0
  | _ => False

/-- Every way a system call can end. -/
structure SyscallPost (L : Layout) (p : Slot) (c : Syscall) (t : Sys) (r : Reply) (t' : Sys) :
    Prop where
  inv : Inv L t'
  state : r ≠ .stopped → (t'.proc p).state = .RUNNING
  view : c.Plain → ∀ e, Shows t e → Shows t' (e.trap p (.syscall c) r)
  killed : (t.proc p).killed = false → (t'.proc p).killed = true →
    (∀ e : Eager, e.trap p (.syscall c) r = e) ∧ Kept (fun _ => False) t t'
  kept : Kept (fun j => c = .fork ∧ r = .child j) t t'

/-- A system call that changes no memory that a process sees. -/
theorem SyscallPost.of_view {t t' : Sys} {c : Syscall} (hi : Inv L t')
    (hs : r ≠ .stopped → (t'.proc p).state = .RUNNING) (hv : c.Plain → SameView t t')
    (hk : Kept (fun _ => False) t t') (he : ∀ e : Eager, e.trap p (.syscall c) r = e) :
    SyscallPost L p c t r t' := by
  refine ⟨hi, hs, fun hc e h => ?_, fun _ _ => ⟨he, hk⟩, fun j _ => hk j id⟩
  rw [he]
  exact (hv hc).shows h

theorem SyscallPost.of_quiet {t t' : Sys} {c : Syscall} (h : Inv L t) (hq : Quiet t t')
    (hs : r ≠ .stopped → (t'.proc p).state = .RUNNING)
    (he : ∀ e : Eager, e.trap p (.syscall c) r = e) : SyscallPost L p c t r t' :=
  .of_view (hq.inv h) hs (fun _ => hq.sameView) hq.kept he

theorem SyscallPost.of_stays {t t' : Sys} {c : Syscall} (h : Stays L p t t')
    (hp : (t.proc p).state = .RUNNING) (hc : ¬ c.Plain)
    (he : ∀ e : Eager, e.trap p (.syscall c) r = e) : SyscallPost L p c t r t' :=
  .of_view h.inv (fun _ => h.state.trans hp) (fun h => (hc h).elim) h.kept he

theorem Inv.sysFork {t : Sys} {p : Slot} (h : Inv L t) (hp : (t.proc p).state = .RUNNING) :
    Wp (syscall L p .fork) InitExiting (SyscallPost L p .fork t) t := by
  obtain ⟨g, hg⟩ := h.sys
  have hne : (t.proc p).state ≠ .UNUSED := by
    rw [hp]
    simp
  rw [syscall]
  refine .bind ((hg.fork h.settled hne).weaken fun _ hf => hf.elim) ?_
  rintro (_ | np) t' hpost
  · obtain ⟨hi, hv, hproc⟩ := NotForked.keeps hpost h.settled
    refine wp_pure.2 (.of_view hi (fun _ => by rw [hproc p hne, hp]) (fun _ => hv) (fun j _ hj => ?_)
      fun _ => rfl)
    have hu := (hv j hj).1
    exact ⟨hu, by rw [hproc j hu]⟩
  · have hf : Forked L p np t g t' := hpost
    have hpn : p ≠ np := by
      rintro rfl
      exact hne hf.unused
    have hproc := hf.others.proc p hpn
    refine wp_pure.2 ⟨hf.toInv h.settled, fun _ => by rw [hproc, hp], fun _ e he => ?_, ?_,
      fun j hj hu => ?_⟩
    · refine he.update (fun _ => ?_) fun j hj hj' => hf.others.view_eq h.settled hj hj'
      rw [← he p hne, Sys.view, Sys.view, hf.sz, hf.pages]
    · rw [hproc]
      intro h1 h2
      rw [h1] at h2
      cases h2
    · have hne : j ≠ np := by
        rintro rfl
        exact hj ⟨rfl, rfl⟩
      rw [hf.others.proc j hne] at hu ⊢
      exact ⟨hu, rfl⟩

theorem Inv.sysSbrk {t : Sys} {p : Slot} (h : Inv L t) (hp : (t.proc p).state = .RUNNING)
    (n : BitVec 32) : Wp (syscall L p (.sbrk n)) InitExiting (SyscallPost L p (.sbrk n) t) t := by
  obtain ⟨g, hg⟩ := h.sys
  have hne : (t.proc p).state ≠ .UNUSED := by
    rw [hp]
    simp
  have hn : -2 ^ 31 ≤ n.toInt := BitVec.le_toInt n
  rw [syscall, wp_bind, wp_get]
  refine .bind ((hg.growproc (h.settled.used p hne).1 n.toInt hn).weaken fun _ hf => hf.elim) ?_
  intro ret t' hpost
  have hi := hpost.toInv h.settled hne
  have hst : (t'.proc p).state = .RUNNING := by rw [hpost.proc, hp]
  have hkill : (t.proc p).killed = false → (t'.proc p).killed = true → False := by
    rw [hpost.proc]
    intro h1 h2
    rw [h1] at h2
    cases h2
  have hother (j : Slot) (hj : j ≠ p) (hj' : (t'.proc j).state ≠ .UNUSED) :=
    hpost.others.view_eq h.settled hj hj'
  have hkept {new : Slot → Prop} : Kept new t t' := by
    intro j _ hj
    by_cases hjp : j = p
    · rw [hjp]
      exact ⟨hne, by rw [hpost.proc]⟩
    · rw [hpost.others.proc j hjp] at hj ⊢
      exact ⟨hj, rfl⟩
  rcases hpost.result with ⟨rfl, hsz, hpages⟩ | ⟨rfl, hsz, hpages⟩
  · refine .ite_pos (by decide) (wp_pure.2 ⟨hi, fun _ => hst, fun _ e he => ?_,
      fun h1 h2 => (hkill h1 h2).elim, hkept⟩)
    have hsame := he.update (p := p) (m := t'.view p) (fun _ => rfl) hother
    have hview : t'.view p = e p := by rw [← he p hne, Sys.view, Sys.view, hsz, hpages]
    rwa [hview, Function.update_eq_self] at hsame
  · refine .ite_neg (by decide) (wp_pure.2 ⟨hi, fun _ => hst, fun _ e he => ?_,
      fun h1 h2 => (hkill h1 h2).elim, hkept⟩)
    have hval : ¬ ((t.proc p).sz : Int) = -1 := by omega
    show Shows t' (if ((t.proc p).sz : Int) = -1 then e else _)
    rw [if_neg hval]
    refine he.update (fun _ => ?_) hother
    rw [← he p hne, Sys.view, UserMem.sbrk, Sys.view]
    dsimp only
    rw [← hsz, hpages]

theorem Inv.sysSetPriority {t : Sys} {p : Slot} (h : Inv L t) (hp : (t.proc p).state = .RUNNING) :
    Wp (syscall L p (.setPriority pid new_priority)) InitExiting
      (SyscallPost L p (.setPriority pid new_priority) t) t := by
  have hscan : Wp (PbsCow.sysSetPriority pid new_priority) InitExiting (fun _ t' => Quiet t t' ∧
      ∀ i, (t'.proc i).state = (t.proc i).state) t := by
    rw [PbsCow.sysSetPriority]
    refine .ite (fun _ => wp_pure.2 ⟨.refl t, fun _ => rfl⟩) fun _ => ?_
    exact (Quiet.setPriorityScan _).weaken fun _ hf => hf.elim
  rw [PbsCow.syscall]
  refine .bind hscan ?_
  rintro ⟨ret, do_yield⟩ t₁ ⟨hq, hs⟩
  have h₁ := hq.inv h
  have hne : (t₁.proc p).state ≠ .UNUSED := by
    rw [hs, hp]
    simp
  refine .ite (fun _ => ?_) fun _ => ?_
  · refine .bind ((h₁.setReturn hne _).weaken fun _ hf => hf.elim) ?_
    intro _ t₂ ht₂
    rw [wp_bind, wp_setProc]
    have hq₂ : Quiet t₂ (t₂.setProc p fun q => { q with state := .RUNNABLE }) :=
      .setProc rfl (fun _ => ⟨rfl, rfl, rfl⟩) (by rwa [ht₂.proc]) (by simp) (by simp)
    exact wp_pure.2 (.of_view (hq₂.inv (ht₂.toInv h₁)) (fun hr => (hr rfl).elim)
      (fun _ => (hq.sameView.trans ht₂.view).trans hq₂.sameView)
      (hq.kept.trans ((Kept.of_same ht₂.proc).trans hq₂.kept)) fun _ => rfl)
  · exact wp_pure.2 (.of_view h₁ (fun _ => (hs p).trans hp) (fun _ => hq.sameView) hq.kept fun _ => rfl)

theorem Inv.syscall {t : Sys} {p : Slot} (h : Inv L t) (hp : (t.proc p).state = .RUNNING)
    (c : Syscall) : Wp (syscall L p c) InitExiting (SyscallPost L p c t) t := by
  have hne : (t.proc p).state ≠ .UNUSED := by
    rw [hp]
    simp
  have hno {α : Type} {x : Ker α} {Q : α → Sys → Prop} (hx : Wp x NoError Q t) :
      Wp x InitExiting Q t := hx.weaken fun _ hf => hf.elim
  cases c with
  | fork => exact h.sysFork hp
  | sbrk n => exact h.sysSbrk hp n
  | exit status =>
    refine .bind (h.exit hp) ?_
    rintro _ t' ⟨hq, _, _⟩
    exact wp_pure.2 (.of_quiet h hq (fun hr => (hr rfl).elim) fun _ => rfl)
  | wait addr =>
    refine .bind (hno (h.wait hp)) ?_
    rintro (_ | ret) t' hpost
    · have hq : Quiet t t' := hpost
      exact wp_pure.2 (.of_quiet h hq (fun hr => (hr rfl).elim) fun _ => rfl)
    · have hw : WaitPost L p addr t t' := hpost
      exact wp_pure.2 (.of_view hw.inv (fun _ => hw.state.trans hp) hw.view hw.kept fun _ => rfl)
  | kill pid =>
    refine .bind (hno (Inv.killScan _)) ?_
    rintro ret t' ⟨hq, hst⟩
    refine wp_pure.2 (.of_quiet h hq (fun _ => ?_) fun _ => rfl)
    rw [hst p (by rw [hp]; simp), hp]
  | exec namei path uargv =>
    refine .bind (hno (h.sysExec hne)) fun ret t' hs => ?_
    exact wp_pure.2 (.of_stays hs hp id fun _ => rfl)
  | pipe fdarray fd0 fd1 =>
    refine .bind (hno (h.sysPipe hp)) fun ret t' hs => ?_
    exact wp_pure.2 (.of_stays hs hp id fun _ => rfl)
  | close page writable =>
    refine .bind (hno (h.pipeclose hp)) fun ret t' hs => ?_
    exact wp_pure.2 (.of_stays hs hp id fun _ => rfl)
  | read dstva src =>
    rw [PbsCow.syscall, wp_bind, wp_get]
    refine .bind (hno (h.copyout hne)) ?_
    rintro ret t' ⟨hi, hproc⟩
    exact wp_pure.2 (.of_stays ⟨hi, by rw [hproc], .of_same hproc⟩ hp id fun _ => rfl)
  | sleep chan =>
    rw [PbsCow.syscall, wp_bind, wp_setProc]
    have hq : Quiet t (t.setProc p fun q => { q with chan := chan, state := .SLEEPING }) :=
      .setProc rfl (fun _ => ⟨rfl, rfl, rfl⟩) hne (by simp) (by simp)
    exact wp_pure.2 (.of_quiet h hq (fun hr => (hr rfl).elim) fun _ => rfl)
  | waitx addr addr1 addr2 wtime rtime =>
    refine .bind (hno (h.sysWaitx hp)) ?_
    rintro (_ | ret) t' hpost
    · have hq : Quiet t t' := hpost
      exact wp_pure.2 (.of_quiet h hq (fun hr => (hr rfl).elim) fun _ => rfl)
    · exact wp_pure.2 (.of_stays ⟨hpost.1, hpost.2.1, hpost.2.2⟩ hp id fun _ => rfl)
  | setPriority pid new_priority => exact h.sysSetPriority hp

def Cause.Plain : Cause → Prop
  | .syscall c => c.Plain
  | _ => True

/-- Every way a trap can end. -/
structure TrapPost (L : Layout) (p : Slot) (cause : Cause) (t : Sys) (r : Reply) (t' : Sys) :
    Prop where
  inv : Inv L t'
  state : r ≠ .stopped → (t'.proc p).state = .RUNNING
  view : cause.Plain → ∀ e, Shows t e → Shows t' (e.trap p cause r)
  fault : ∀ addr, cause = .storeFault addr → r ≠ .stopped →
    flag (t'.mem.translate (t'.proc p).pagetable addr) PTE_COW = false
  unexpected : cause = .unexpected → r = .stopped
  unused : (∀ c, cause ≠ .syscall c) → ∀ j, (t'.proc j).state = .UNUSED → (t.proc j).state = .UNUSED
  kept : Kept (fun j => cause = .syscall .fork ∧ r = .child j) t t'

theorem TrapPost.touched {t t₁ t' : Sys} (hpost : TrapPost L p cause t₁ r t') (h : Touched L t t₁) :
    TrapPost L p cause t r t' :=
  ⟨hpost.inv, hpost.state, fun hc e he => hpost.view hc e (h.view.shows he), hpost.fault,
    hpost.unexpected, fun hc j hj => h.proc ▸ hpost.unused hc j hj, (Kept.of_same h.proc).trans hpost.kept⟩

/-- A trap in which the process exits, or is descheduled. -/
theorem TrapPost.of_quiet {t t' : Sys} (h : Inv L t) (hq : Quiet t t') :
    TrapPost L p c t .stopped t' := by
  have he (e : Eager) : e.trap p c .stopped = e := by
    rcases c with (_ | _ | _ | _ | _ | _ | _ | _ | _ | _ | _ | _) | _ | _ | _ <;> rfl
  refine ⟨hq.inv h, fun hr => (hr rfl).elim, fun _ e hs => ?_, fun _ _ hr => (hr rfl).elim,
    fun _ => rfl, fun _ j => (hq.unused j).1, hq.kept⟩
  rw [he]
  exact hq.sameView.shows hs

theorem Inv.trapSyscall {t : Sys} {p : Slot} (h : Inv L t) (hp : (t.proc p).state = .RUNNING)
    (hk : (t.proc p).killed = false) (epc : Word) (c : Syscall) :
    Wp (do
      let trapframe := ((← get).proc p).trapframe
      onMem (storeWord (trapframe + tfEpc) epc)
      let r ← PbsCow.syscall L p c
      if r = .stopped then return .stopped
      PbsCow.setReturn p r
      PbsCow.exitIfKilled p (return r)) InitExiting (TrapPost L p (.syscall c) t) t := by
  have hne : (t.proc p).state ≠ .UNUSED := by
    rw [hp]
    simp
  have e2 (x : Nat) : x + tfEpc = x + 8 * 3 := rfl
  rw [wp_bind, wp_get]
  simp only [e2]
  refine .bind ((h.storeTrapframe hne (by decide) epc).weaken fun _ hf => hf.elim) ?_
  rintro _ t₁ ⟨h₁, _⟩
  have hi₁ := h₁.toInv h
  refine .bind (hi₁.syscall (by rw [h₁.proc, hp]) c) ?_
  intro r t₂ hpost
  refine .ite (fun hr => ?_) fun hr => ?_
  · subst hr
    refine wp_pure.2 (TrapPost.touched ?_ h₁)
    exact ⟨hpost.inv, hpost.state, hpost.view, by simp, by simp, fun hc => (hc c rfl).elim,
      fun j hj => hpost.kept j fun hr => hj ⟨by rw [hr.1], hr.2⟩⟩
  have hst₂ := hpost.state hr
  refine .bind ((hpost.inv.setReturn (p := p) (by rw [hst₂]; simp) r).weaken fun _ hf => hf.elim) ?_
  intro _ t₃ h₃
  have hi₃ := h₃.toInv hpost.inv
  have hview (hc : c.Plain) (e : Eager) (he : Shows t e) : Shows t₃ (e.trap p (.syscall c) r) :=
    h₃.view.shows (hpost.view hc e (h₁.view.shows he))
  refine hi₃.exitIfKilled (by rw [h₃.proc, hst₂]) (fun t₄ hq hz hk₃ => ?_) fun _ => wp_pure.2 ?_
  · -- a call that kills its caller has not touched anybody's memory
    obtain ⟨hsame, hkept⟩ := hpost.killed (by rw [h₁.proc, hk]) (by rw [← h₃.proc, hk₃])
    have hlast := TrapPost.of_quiet (p := p) (c := .syscall c) hi₃ hq
    refine ⟨hlast.inv, hlast.state, fun hc e he => hlast.view hc e ?_, hlast.fault, hlast.unexpected,
      fun hc => (hc c rfl).elim,
      (Kept.of_same h₁.proc).trans (Kept.trans ?_ ((Kept.of_same h₃.proc).trans hq.kept))⟩
    · rw [← hsame e]
      exact hview hc e he
    · exact fun j _ => hkept j id
  · refine ⟨hi₃, fun _ => by rw [h₃.proc, hst₂], hview, by simp, by simp,
      fun hc => (hc c rfl).elim, (Kept.of_same h₁.proc).trans (Kept.trans ?_ (.of_same h₃.proc))⟩
    exact fun j hj => hpost.kept j fun hr => hj ⟨by rw [hr.1], hr.2⟩

theorem Inv.usertrap {t : Sys} {p : Slot} (h : Inv L t) (hp : (t.proc p).state = .RUNNING)
    (regs : Regs) (cause : Cause) :
    Wp (usertrap L p regs cause) InitExiting (TrapPost L p cause t) t := by
  have hne : (t.proc p).state ≠ .UNUSED := by
    rw [hp]
    simp
  rw [PbsCow.usertrap.eq_def]
  refine .bind ((h.uservec hne regs).weaken fun _ hf => hf.elim) ?_
  rintro _ t₁ ⟨h₁, _⟩
  have hi₁ := h₁.toInv h
  have hp₁ : (t₁.proc p).state = .RUNNING := by rw [h₁.proc, hp]
  have hne₁ : (t₁.proc p).state ≠ .UNUSED := by
    rw [hp₁]
    simp
  suffices hpost : Wp _ InitExiting (TrapPost L p cause t₁) t₁ from
    hpost.mono fun _ _ hp => hp.touched h₁
  cases cause with
  | syscall c =>
    exact hi₁.exitIfKilled hp₁ (fun t₂ hq _ _ => .of_quiet hi₁ hq) fun hk =>
      hi₁.trapSyscall hp₁ hk _ c
  | storeFault addr =>
    refine .bind ((hi₁.storePageFault hne₁).weaken fun _ hf => hf.elim) ?_
    rintro _ t₂ ⟨hi₂, hv₂, hs₂, hcow⟩
    have hst (j : Slot) (hj : (t₂.proc j).state = .UNUSED) : (t₁.proc j).state = .UNUSED :=
      (hs₂ j).1.symm.trans hj
    have hkept {new : Slot → Prop} : Kept new t₁ t₂ := fun j _ hj => ⟨(hs₂ j).1 ▸ hj, (hs₂ j).2⟩
    refine hi₂.exitIfKilled ((hs₂ p).1.trans hp₁) (fun t₃ hq _ _ => ?_) fun hk => wp_pure.2 ?_
    · have hlast := TrapPost.of_quiet (p := p) (c := .storeFault addr) hi₂ hq
      exact ⟨hlast.inv, hlast.state, fun hc e he => hlast.view hc e (hv₂.shows he), hlast.fault,
        hlast.unexpected, fun _ j hj => hst j ((hq.unused j).1 hj), hkept.trans hq.kept⟩
    · refine ⟨hi₂, fun _ => (hs₂ p).1.trans hp₁, fun _ e he => hv₂.shows he, ?_, by simp,
        fun _ => hst, hkept⟩
      rintro a ha _
      cases ha
      exact hcow hk
  | timer =>
    refine hi₁.exitIfKilled hp₁ (fun t₂ hq _ _ => .of_quiet hi₁ hq) fun _ => ?_
    refine wp_bind.2 (wp_setProc.2 (wp_pure.2 (.of_quiet hi₁ ?_)))
    exact .setProc rfl (fun _ => ⟨rfl, rfl, rfl⟩) hne₁ (by simp) (by simp)
  | unexpected =>
    rw [wp_bind, wp_setkilled]
    have hq := Quiet.killIf hne₁ true
    have hk : ((t₁.setProc p (·.killIf true)).proc p).killed = true := by
      rw [Sys.setProc_self, Proc.killIf, Bool.or_true]
    refine (hq.inv hi₁).exitIfKilled (by rw [Sys.setProc_self]; exact hp₁)
      (fun t₂ hq' _ _ => .of_quiet hi₁ (hq.trans hq')) fun hf => ?_
    rw [hk] at hf
    cases hf

def Op.Plain : Op → Prop
  | .trap _ _ cause => cause.Plain
  | _ => True

/-- What user code does without a system call. -/
def Op.Native : Op → Prop
  | .trap _ _ (.syscall _) => False
  | _ => True

def Op.IsFork : Op → Prop
  | .trap _ _ (.syscall .fork) => True
  | _ => False

/-- Every way an operation can end. -/
structure StepPost (L : Layout) (op : Op) (t : Sys) (out : Out) (t' : Sys) : Prop where
  inv : Inv L t'
  sim : op.Plain → ∀ e, Shows t e → (e.step op out).1 = out ∧ Shows t' (e.step op out).2
  unused : op.Native → ∀ j, (t'.proc j).state = .UNUSED → (t.proc j).state = .UNUSED
  kept : Kept (fun j => op.IsFork ∧ out = .reply (.child j)) t t'

theorem Inv.dispatch {t : Sys} {p : Slot} (h : Inv L t) :
    Wp (PbsCow.step L (.dispatch p)) InitExiting (StepPost L (.dispatch p) t) t := by
  rw [PbsCow.step, whenState]
  simp only [wp_bind, wp_get]
  refine .ite (fun hp => ?_) fun _ => wp_pure.2 ⟨h, fun _ e he => ⟨rfl, he⟩,
    fun _ _ hj => hj, .of_same rfl⟩
  rw [wp_bind, wp_setProc]
  have hq : Quiet t (t.setProc p fun q => { q with state := .RUNNING }) :=
    .setProc rfl (fun _ => ⟨rfl, rfl, rfl⟩) (by rw [hp]; simp) (by simp) (by simp)
  exact wp_pure.2 ⟨hq.inv h, fun _ e he => ⟨rfl, hq.sameView.shows he⟩, fun _ j => (hq.unused j).1,
    hq.kept⟩

theorem Inv.load {t : Sys} {p : Slot} (h : Inv L t) (hp : (t.proc p).state = .RUNNING)
    (regs : Regs) (va : Nat) :
    Wp (load L p regs va) InitExiting (StepPost L (.load p regs va) t) t := by
  obtain ⟨g, hg⟩ := h.sys
  have hne : (t.proc p).state ≠ .UNUSED := by
    rw [hp]
    simp
  have hload := hg.userLoad (h.settled.used p hne).1 va
  rw [PbsCow.load, wp_bind, wp_get]
  cases hr : t.mem.userLoad (t.proc p).pagetable va with
  | some b =>
    refine wp_pure.2 ⟨h, fun _ e he => ?_, fun _ _ hj => hj, .of_same rfl⟩
    rw [hr, he p hne] at hload
    simp only [Eager.step, ← hload]
    exact ⟨trivial, he⟩
  | none =>
    refine .bind (h.usertrap hp regs .unexpected) fun r t' hpost => wp_pure.2 ⟨hpost.inv, ?_,
      fun _ => hpost.unused (by simp), fun j _ => hpost.kept j (by simp)⟩
    intro _ e he
    rw [hr, he p hne] at hload
    simp only [Eager.step, ← hload]
    exact ⟨trivial, hpost.view trivial e he⟩

/-- A store that is done is done in the memory of its process only. -/
theorem Inv.userStore {t : Sys} {p : Slot} (h : Inv L t) (hp : (t.proc p).state ≠ .UNUSED)
    (hs : t.mem.userStore (t.proc p).pagetable va b = some m) :
    StepPost L (.store p regs va b) t .stored { t with mem := m } := by
  obtain ⟨g, hg⟩ := h.sys
  obtain ⟨h', ho, hv⟩ := hg.userStore_some (h.settled.used p hp).1 hs
  refine ⟨⟨h.settled.congr rfl, g, h'⟩, fun _ e he => ?_, fun _ _ hj => hj, .of_same rfl⟩
  rw [he p hp] at hv
  simp only [Eager.step, hv]
  exact ⟨trivial, he.update (fun _ => rfl) fun j hj hj' => ho.view_eq h.settled hj hj'⟩

theorem StepPost.of_view {t t₁ t' : Sys} (hpost : StepPost L op t₁ out t')
    (hv : ∀ e, op.Plain → Shows t e → Shows t₁ e)
    (hu : ∀ j, (t₁.proc j).state = .UNUSED → (t.proc j).state = .UNUSED)
    (hk : Kept (fun j => op.IsFork ∧ out = .reply (.child j)) t t₁) : StepPost L op t out t' :=
  ⟨hpost.inv, fun ho e he => hpost.sim ho e (hv e ho he), fun ho j hj => hu j (hpost.unused ho j hj),
    hk.trans hpost.kept⟩

theorem wp_tryStore {k : Option Unit → Ker α} {t : Sys}
    (hsome : ∀ m, t.mem.userStore (t.proc p).pagetable va b = some m →
      Wp (k (some ())) E Q { t with mem := m })
    (hnone : t.mem.userStore (t.proc p).pagetable va b = none → Wp (k none) E Q t) :
    Wp (tryStore p va b >>= k) E Q t := by
  rw [tryStore]
  simp only [wp_bind, wp_get]
  cases hs : t.mem.userStore (t.proc p).pagetable va b with
  | some m => exact wp_bind.2 (wp_set.2 (wp_pure.2 (hsome m hs)))
  | none => exact wp_pure.2 (hnone hs)

theorem Inv.store {t : Sys} {p : Slot} (h : Inv L t) (hp : (t.proc p).state = .RUNNING)
    (regs : Regs) (va : Nat) (b : Byte) :
    Wp (store L p regs va b) InitExiting (StepPost L (.store p regs va b) t) t := by
  have hne : (t.proc p).state ≠ .UNUSED := by
    rw [hp]
    simp
  rw [PbsCow.store]
  refine wp_tryStore (fun m hs => wp_pure.2 (h.userStore hne hs)) fun _ => ?_
  refine .bind (h.usertrap hp regs (.storeFault va)) fun r t₁ hpost => ?_
  have hv (e : Eager) (he : Shows t e) : Shows t₁ e := hpost.view trivial e he
  have hu := hpost.unused (by simp)
  have hk {new : Slot → Prop} : Kept new t t₁ := fun j _ => hpost.kept j (by simp)
  by_cases hr : r = .stopped
  · subst hr
    exact wp_pure.2 ⟨hpost.inv, fun _ e he => ⟨rfl, hv e he⟩, fun _ => hu, hk⟩
  have hp₁ := hpost.state hr
  have hne₁ : (t₁.proc p).state ≠ .UNUSED := by
    rw [hp₁]
    simp
  have hretry {k : Option Unit → Ker Out} (hsome : k (some ()) = pure .stored)
      (hnone : k none = pure .faulted) :
      Wp (tryStore p va b >>= k) InitExiting (StepPost L (.store p regs va b) t) t₁ := by
    refine wp_tryStore (fun m hs₁ => ?_) fun hs₁ => ?_
    · rw [hsome]
      exact wp_pure.2 ((hpost.inv.userStore hne₁ hs₁).of_view (fun e _ => hv e) hu hk)
    · obtain ⟨g, hg⟩ := hpost.inv.sys
      have hview := hg.userStore_none (hpost.inv.settled.used p hne₁).1 hs₁ (hpost.fault va rfl hr)
      rw [hnone]
      refine wp_pure.2 ⟨hpost.inv, fun _ e he => ?_, fun _ => hu, hk⟩
      rw [hv e he p hne₁] at hview
      simp only [Eager.step, hview]
      exact ⟨trivial, hv e he⟩
  cases r <;> first | exact hretry rfl rfl | exact (hr rfl).elim

/-- Every operation keeps the invariant, and does to user memory what a machine without sharing
does. -/
theorem Inv.step {t : Sys} (h : Inv L t) (op : Op) :
    Wp (step L op) InitExiting (StepPost L op t) t := by
  have hskip : StepPost L op t .skipped t := by
    refine ⟨h, fun _ e he => ?_, fun _ _ hj => hj, .of_same rfl⟩
    cases op <;> exact ⟨rfl, he⟩
  cases op with
  | dispatch p => exact h.dispatch
  | load p regs va =>
    simp only [PbsCow.step, whenState, wp_bind, wp_get]
    exact .ite (fun hp => h.load hp regs va) fun _ => wp_pure.2 hskip
  | store p regs va b =>
    simp only [PbsCow.step, whenState, wp_bind, wp_get]
    exact .ite (fun hp => h.store hp regs va b) fun _ => wp_pure.2 hskip
  | trap p regs cause =>
    simp only [PbsCow.step, whenState, wp_bind, wp_get]
    refine .ite (fun hp => ?_) fun _ => wp_pure.2 hskip
    refine .bind (h.usertrap hp regs cause) fun r t' hpost => wp_pure.2 ⟨hpost.inv, ?_, fun ho => ?_,
      fun j hj => hpost.kept j fun hr => hj (by rw [hr.1, hr.2]; exact ⟨trivial, rfl⟩)⟩
    · exact fun hc e he => ⟨rfl, hpost.view hc e he⟩
    · refine hpost.unused fun c hc => ?_
      rw [hc] at ho
      exact ho

/-- A run keeps the invariant, and user code sees what it would see without sharing. -/
theorem Inv.run {t : Sys} (h : Inv L t) (ops : List Op) :
    Wp (run L ops) InitExiting (fun outs t' => Inv L t' ∧
      ((∀ op ∈ ops, op.Plain) → ∀ e, Shows t e → e.run (ops.zip outs) = outs)) t := by
  induction ops generalizing t with
  | nil => exact wp_pure.2 ⟨h, fun _ _ _ => rfl⟩
  | cons op ops ih =>
    rw [PbsCow.run]
    refine .bind (h.step op) fun out t₁ h₁ => .bind (ih h₁.inv) ?_
    rintro outs t' ⟨hi, hsim⟩
    refine wp_pure.2 ⟨hi, fun hops e he => ?_⟩
    obtain ⟨hout, hs⟩ := h₁.sim (hops op (by simp)) e he
    have hrest := hsim (fun op' hm => hops op' (by simp [hm])) _ hs
    rw [List.zip_cons_cons, Eager.run, hout, hrest]

end PbsCow
